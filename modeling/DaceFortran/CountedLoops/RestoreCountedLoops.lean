/-
# `RestoreCountedLoops`

The pass that turns a trip-counted `scf.while` back into a counted `fir.do_loop`:
`matchTripCountedLoop` finds the trip counter, the loop variable, its first value and its
step; `upperBoundOfTripCount` recovers the upper bound from the expression of the count.
-/
import Mathlib.Data.List.Nodup
import DaceFortran.CountedLoops.OpFrame

open List

namespace CountedLoops

variable {A : Addresses} {M : Type}

/-! ## The matcher -/

/-- `store (load %mem) <op> %delta to %mem` at the end of the operations, in reverse: the address,
the delta and the operations before. -/
def matchUpdate (op : BinOp) : List (Op A M) → Option (ℕ × Operand × List (Op A M))
  | .store x p :: .bin o w a d :: .load v q :: rest =>
    if x = .val w ∧ o = op ∧ a = .val v ∧ q = p then some (p, d, rest) else none
  | _ => none

/-- The memref of the store the operations end with, in reverse. -/
def lastStore : List (Op A M) → Option ℕ
  | .store _ p :: _ => some p
  | _ => none

/-- The loop variable, its step and the operations before the two updates, in reverse. -/
def matchUpdates (trip : ℕ) (ops : List (Op A M)) : Option (ℕ × Operand × List (Op A M)) :=
  match lastStore ops with
  | none => none
  | some p =>
    if p = trip then
      match matchUpdate .sub ops with
      | some (_, .lit 1, rest) => matchUpdate .add rest
      | _ => none
    else
      match matchUpdate .add ops with
      | some (iv, step, rest) =>
        if lastStore rest = some trip then
          match matchUpdate .sub rest with
          | some (_, .lit 1, rest') => some (iv, step, rest')
          | _ => none
        else none
      | none => none

/-- What the before region of a trip-counted loop has: the load of the trip counter, the comparison,
the body and, when there is one, the truncation of its result. -/
structure BeforeShape (A : Addresses) (M : Type) where
  loaded : ℕ
  trip : ℕ
  cmp : ℕ
  body : IfOp A M
  trunc : Option (ℕ × Operand)

def matchBefore (ops : List (BeforeOp A M)) : Option (BeforeShape A M) :=
  match ops.filter fun o => !o.isConst with
  | [.op (.load v p), .cmpi .sgt c (.val v') (.lit 0), .ifOp body] =>
    if v' = v ∧ body.cond = .val c then some ⟨v, p, c, body, none⟩ else none
  | [.op (.load v p), .cmpi .sgt c (.val v') (.lit 0), .ifOp body, .trunci t a] =>
    if v' = v ∧ body.cond = .val c then some ⟨v, p, c, body, some (t, a)⟩ else none
  | _ => none

/-- The constants the two branches yield for a result. -/
def IfOp.yieldsOf (i : IfOp A M) (r : ℕ) : Option (Operand × Operand) :=
  match i.elseBlock with
  | none => none
  | some (_, yields) => (i.results.zip (i.thenYield.zip yields)).lookup r

/-- `continuesAfterBody` -/
def continuesAfterBody (cond : Operand) (b : BeforeShape A M) : Bool :=
  match b.trunc with
  | none => decide (cond = .val b.cmp)
  | some (t, a) =>
    decide (cond = .val t) &&
      match a with
      | .val r =>
        match b.body.yieldsOf r with
        | some (.lit onThen, .lit onElse) => decide (onThen ≠ 0) && decide (onElse = 0)
        | _ => false
      | .lit _ => false

/-- The else branch has nothing but constants, and is there if the `scf.if` has results. -/
def elseDoesNothing (i : IfOp A M) : Bool :=
  match i.elseBlock with
  | none => decide (i.results = [])
  | some (ops, _) => ops.all Op.isConst

/-- The values a before region defines. -/
def BeforeShape.values (b : BeforeShape A M) : List ℕ :=
  b.loaded :: b.cmp :: (b.body.results ++ match b.trunc with | some (t, _) => [t] | none => [])

/-- The value stored by the only operation before the loop that uses the trip counter. -/
def tripInitOf (trip : ℕ) (pre : List (Op A M)) : Option Operand :=
  match pre.filter (Op.touches trip) with
  | [.store x _] => some x
  | _ => none

/-- The value of the nearest `fir.store` to the loop variable, `distance` operations being left to
look at. -/
def ivInitOf (iv : ℕ) : ℕ → List (Op A M) → Option Operand
  | 0, _ | _, [] => none
  | distance + 1, o :: rest =>
    if o.hasRegions then none
    else
      match o with
      | .store x p => if p = iv then some x else ivInitOf iv distance rest
      | _ => ivInitOf iv distance rest

/-- `TripCountedLoop` -/
structure TripCountedLoop (A : Addresses) (M : Type) where
  trip : ℕ
  tripInit : Operand
  iv : ℕ
  ivInit : Operand
  step : Operand
  body : List (Op A M)

/-- The step is defined outside the loop, or a constant. -/
def stepInvariant (step : Operand) (inLoop : List ℕ) : Bool :=
  step.uses.all fun v => decide (v ∉ inLoop)

/-- `matchTripCountedLoop`, the operations before the loop in its block being `pre`. -/
def matchTripCountedLoop (pre : List (Op A M)) (w : WhileOp A M) : Option (TripCountedLoop A M) :=
  if w.results ≠ 0 ∨ w.inits ≠ [] ∨ w.after ≠ [] ∨ w.condArgs ≠ [] then none
  else
    (matchBefore w.before).bind fun b =>
      if !elseDoesNothing b.body || !continuesAfterBody w.cond b || !A.alloca b.trip then none
      else
        (matchUpdates b.trip (b.body.thenOps.filter fun o => !o.isConst).reverse).bind fun u =>
          let body := u.2.2.reverse
          if !stepInvariant u.2.1 (b.values ++ b.body.thenOps.flatMap Op.results) ||
              (b.body.thenOps.any fun o => o.uses.any fun v => decide (v ∈ b.values)) ||
              (b.body.thenYield.any fun x => x.uses.any fun v => decide (v ∈ b.values)) ||
              A.taken b.trip || body.any (Op.touches b.trip) then none
          else
            (tripInitOf b.trip pre).bind fun tripInit =>
              if body.any (Op.storesTo u.1) then none
              else
                (ivInitOf u.1 8 pre.reverse).map fun ivInit =>
                  ⟨b.trip, tripInit, u.1, ivInit, u.2.1, body⟩

/-! ## The rewrite -/

/-- The operations that define values outside the loop. -/
abbrev Defs := ℕ → Option (BinOp × Operand × Operand)

def defOf (defs : Defs) : Operand → Option (BinOp × Operand × Operand)
  | .val v => defs v
  | .lit _ => none

/-- The left operand of a division by the step; the count itself when it is no division. -/
def dividend (defs : Defs) (m : TripCountedLoop A M) : Option Operand :=
  match defOf defs m.tripInit with
  | some (.div, a, b) => if b = m.step then some a else none
  | _ => some m.tripInit

/-- `upperBoundOfTripCount` -/
def upperBoundOfTripCount (defs : Defs) (m : TripCountedLoop A M) : Option Operand :=
  (dividend defs m).bind fun count =>
    match defOf defs count with
    | some (.add, a, b) =>
      if b = m.step then
        match defOf defs a with
        | some (.sub, ub, lb) => if lb = m.ivInit then some ub else none
        | _ => none
      else none
    | _ => none

/-- The block before the loop, the trip counter no longer initialised. -/
def TripCountedLoop.pre (m : TripCountedLoop A M) (pre : List (Op A M)) : List (Op A M) :=
  pre.filter fun o => !o.touches m.trip

/-- The upper bound of the counted loop: the one recovered, or `lb + (trip - 1) * step`. -/
def TripCountedLoop.upper (m : TripCountedLoop A M) (defs : Defs) (env : Env) : ℤ :=
  match upperBoundOfTripCount defs m with
  | some ub => ub.eval env
  | none => m.ivInit.eval env + (m.tripInit.eval env - 1) * m.step.eval env

/-- The number of iterations of a `fir.do_loop`; there is none for a step of zero. -/
def doCount (lb ub step : ℤ) : Option ℕ :=
  if step = 0 then none else some ((ub - lb + step).tdiv step).toNat

/-- The iterations: the induction variable is stored in the loop variable, then comes the body. -/
def doIterations (env : Env) (iv : ℕ) (step : ℤ) (body : List (Op A M)) :
    ℕ → ℤ → Memory M → List (Memory M) × Memory M
  | 0, _, m => ([], m)
  | n + 1, i, m =>
    let m₀ := m.set (A.cell iv) i
    let r := doIterations env iv step body n (i + step) (runOps body (env, m₀)).2
    (m₀ :: r.1, r.2)

/-- The restored loop and the store of the loop variable after it: the memory each body started
with, and the memory in the end. -/
def TripCountedLoop.run (m : TripCountedLoop A M) (defs : Defs) (env : Env) (mem : Memory M) :
    Option (List (Memory M) × Memory M) :=
  (doCount (m.ivInit.eval env) (m.upper defs env) (m.step.eval env)).map fun n =>
    let r := doIterations env m.iv (m.step.eval env) m.body n (m.ivInit.eval env) mem
    (r.1, r.2.set (A.cell m.iv)
      (m.ivInit.eval env + max (m.tripInit.eval env) 0 * m.step.eval env))

end CountedLoops

/-
# A turn of a trip-counted while loop

What `matchTripCountedLoop` has found is read back as equations on the loop, and a turn of
the loop is then one iteration: the body, one less on the trip counter, one step more on
the loop variable; it happens exactly if the trip counter is positive.
-/

namespace CountedLoops

open Function

variable {A : Addresses} {M : Type}

/-! ## The two updates -/

/-- `store (load %mem) <op> %delta to %mem` -/
def updateOps (op : BinOp) (v w : ℕ) (d : Operand) (p : ℕ) : List (Op A M) :=
  [.load v p, .bin op w (.val v) d, .store (.val w) p]

variable {ops rest : List (Op A M)} {trip iv : ℕ}

theorem matchUpdate_eq {op : BinOp} {p : ℕ} {d : Operand}
    (h : matchUpdate op ops = some (p, d, rest)) :
    ∃ v w, ops.reverse = rest.reverse ++ updateOps op v w d p := by
  unfold matchUpdate at h
  split at h
  · rename_i x p' o w a d' v q rest'
    split_ifs at h with hc
    obtain ⟨rfl, rfl, rfl, rfl⟩ := hc
    simp only [Option.some.injEq, Prod.mk.injEq] at h
    obtain ⟨rfl, rfl, rfl⟩ := h
    exact ⟨v, w, by simp [updateOps]⟩
  · cases h

/-- The update of the loop variable and the one of the trip counter, in either order, end the
operations. -/
theorem matchUpdates_eq {step : Operand}
    (h : matchUpdates trip ops = some (iv, step, rest)) :
    ∃ v w v' w',
      ops.reverse = rest.reverse ++
        (updateOps .add v w step iv ++ updateOps .sub v' w' (.lit 1) trip) ∨
      ops.reverse = rest.reverse ++
        (updateOps .sub v' w' (.lit 1) trip ++ updateOps .add v w step iv) := by
  unfold matchUpdates at h
  split at h
  · cases h
  · rename_i p hp
    split_ifs at h with hpt
    · split at h
      · rename_i q rest' hs
        obtain ⟨v', w', he'⟩ := matchUpdate_eq hs
        obtain ⟨v, w, he⟩ := matchUpdate_eq h
        have hq : q = trip := by
          unfold matchUpdate at hs
          split at hs
          · split_ifs at hs
            simp only [Option.some.injEq, Prod.mk.injEq] at hs
            simp only [lastStore, Option.some.injEq] at hp
            rw [← hs.1, hp, hpt]
          · cases hs
        refine ⟨v, w, v', w', Or.inl ?_⟩
        rw [he', he, hq, append_assoc]
      · cases h
    · split at h
      · rename_i iv' step' rest' hs
        split_ifs at h with hl
        split at h
        · rename_i q rest'' hs'
          simp only [Option.some.injEq, Prod.mk.injEq] at h
          obtain ⟨rfl, rfl, rfl⟩ := h
          obtain ⟨v, w, he⟩ := matchUpdate_eq hs
          obtain ⟨v', w', he'⟩ := matchUpdate_eq hs'
          have hq : q = trip := by
            unfold matchUpdate at hs'
            split at hs'
            · split_ifs at hs'
              simp only [Option.some.injEq, Prod.mk.injEq] at hs'
              simp only [lastStore, Option.some.injEq] at hl
              rw [← hs'.1, hl]
            · cases hs'
          refine ⟨v, w, v', w', Or.inr ?_⟩
          rw [he, he', hq, append_assoc]
        · cases h
      · cases h

theorem runOps_update (op : BinOp) (v w : ℕ) (d : Operand) (p : ℕ) (env : Env) (m : Memory M)
    (hd : ∀ u ∈ d.uses, u ≠ v) :
    (runOps (updateOps (A := A) op v w d p) (env, m)).2 =
      m.set (A.cell p) (op.eval (m.cells (A.cell p)) (d.eval env)) := by
  have he : d.eval (update env v (m.cells (A.cell p))) = d.eval env := by
    apply Operand.eval_congr
    intro u hu
    exact update_of_ne (hd u hu) _ _
  show m.set (A.cell p) (update (update env v (m.cells (A.cell p))) w
    (op.eval (update env v (m.cells (A.cell p)) v)
      (d.eval (update env v (m.cells (A.cell p))))) w) = _
  rw [he, update_self, update_self]

/-- One iteration of the while loop: the body and the two updates. -/
def TripCountedLoop.iteration (m : TripCountedLoop A M) (env : Env) (mem : Memory M) : Memory M :=
  let r := (runOps m.body (env, mem)).2
  let s := r.set (A.cell m.trip) (r.cells (A.cell m.trip) - 1)
  s.set (A.cell m.iv) (s.cells (A.cell m.iv) + m.step.eval env)

/-- The order of the two updates does not matter. -/
theorem updates_comm (r : Memory M) (x : ℤ) :
    (let s := r.set (A.cell iv) (r.cells (A.cell iv) + x)
     s.set (A.cell trip) (s.cells (A.cell trip) - 1)) =
    (let s := r.set (A.cell trip) (r.cells (A.cell trip) - 1)
     s.set (A.cell iv) (s.cells (A.cell iv) + x)) := by
  by_cases hc : A.cell iv = A.cell trip
  · have hx : r.cells (A.cell trip) + x - 1 = r.cells (A.cell trip) - 1 + x := by omega
    simp [hc, hx]
  · simp only [Memory.set_cells_other _ _ hc, Memory.set_cells_other _ _ (Ne.symm hc)]
    rw [Memory.set_comm _ _ _ hc]

/-! ## What a match says -/

theorem matchBefore_eq {ops : List (BeforeOp A M)} {b : BeforeShape A M}
    (h : matchBefore ops = some b) :
    ops.filter (fun o => !o.isConst) =
      [.op (.load b.loaded b.trip), .cmpi .sgt b.cmp (.val b.loaded) (.lit 0), .ifOp b.body] ++
        (match b.trunc with | none => [] | some (t, a) => [.trunci t a]) ∧
    b.body.cond = .val b.cmp := by
  unfold matchBefore at h
  split at h
  · rename_i v p c v' body he
    split_ifs at h with hc
    obtain ⟨rfl, hb⟩ := hc
    cases h
    exact ⟨he, hb⟩
  · rename_i v p c v' body t a he
    split_ifs at h with hc
    obtain ⟨rfl, hb⟩ := hc
    cases h
    exact ⟨he, hb⟩
  · cases h

/-- The loop goes on after the body ran: the truncated result keeps the lowest bit only. -/
def BeforeShape.goesOn (b : BeforeShape A M) : Bool :=
  match b.trunc with
  | none => true
  | some (_, .val r) =>
    match b.body.yieldsOf r with
    | some (.lit k, _) => decide (k % 2 ≠ 0)
    | _ => false
  | some (_, .lit _) => false

def WhileOp.goesOn (w : WhileOp A M) : Bool :=
  match matchBefore w.before with
  | some b => b.goesOn
  | none => false

/-- What holds of a loop that `matchTripCountedLoop` accepts. -/
structure Accepted (pre : List (Op A M)) (w : WhileOp A M) (m : TripCountedLoop A M)
    (b : BeforeShape A M) : Prop where
  after : w.after = []
  before : matchBefore w.before = some b
  trip : b.trip = m.trip
  nothing : elseDoesNothing b.body = true
  continuing : continuesAfterBody w.cond b = true
  hidden : A.Private m.trip
  updates : ∃ v v' w w',
    b.body.thenOps.filter (fun o => !o.isConst) =
      m.body ++ (updateOps .add v w m.step m.iv ++ updateOps .sub v' w' (.lit 1) m.trip) ∨
    b.body.thenOps.filter (fun o => !o.isConst) =
      m.body ++ (updateOps .sub v' w' (.lit 1) m.trip ++ updateOps .add v w m.step m.iv)
  invariant : ∀ v ∈ m.step.uses, v ∉ b.values ∧ v ∉ b.body.thenOps.flatMap Op.results
  independent : ∀ o ∈ b.body.thenOps, ∀ v ∈ Op.uses o, v ∉ b.values
  untouched : ∀ o ∈ m.body, Op.touches m.trip o = false
  tripInit : tripInitOf m.trip pre = some m.tripInit
  ivInit : ivInitOf m.iv 8 pre.reverse = some m.ivInit

theorem accepted {pre : List (Op A M)} {w : WhileOp A M} {m : TripCountedLoop A M}
    (h : matchTripCountedLoop pre w = some m) : ∃ b, Accepted pre w m b := by
  unfold matchTripCountedLoop at h
  split_ifs at h with hw
  simp only [not_or, not_not] at hw
  rw [Option.bind_eq_some_iff] at h
  obtain ⟨b, hb, h⟩ := h
  split_ifs at h with hg
  rw [Option.bind_eq_some_iff] at h
  obtain ⟨⟨iv, step, rest⟩, hu, h⟩ := h
  simp only at h
  split_ifs at h with hs hiv
  · simp at h
  rw [Option.bind_eq_some_iff] at h
  obtain ⟨tripInit, ht, h⟩ := h
  rw [Option.map_eq_some_iff] at h
  obtain ⟨ivInit, hi, rfl⟩ := h
  simp only [Bool.or_eq_true, Bool.not_eq_true', not_or, Bool.not_eq_false,
    Bool.not_eq_true] at hg hs
  obtain ⟨⟨⟨⟨hstep, huses⟩, -⟩, htaken⟩, htouch⟩ := hs
  obtain ⟨v, w', v', w'', hops⟩ := matchUpdates_eq hu
  rw [reverse_reverse] at hops
  refine ⟨b, hw.2.2.1, hb, rfl, hg.1.1, hg.1.2, ⟨hg.2, htaken⟩,
    ⟨v, v', w', w'', hops⟩, ?_, ?_, ?_, ht, hi⟩
  · intro u hu'
    simp only [stepInvariant, all_eq_true, decide_eq_true_eq] at hstep
    have := hstep u hu'
    rwa [mem_append, not_or] at this
  · intro o ho u hu' hv
    simp only [any_eq_false] at huses
    exact huses o ho (any_eq_true.2 ⟨u, hu', decide_eq_true hv⟩)
  · intro o ho
    simp only [any_eq_false, Bool.not_eq_true] at htouch
    exact htouch o ho

/-! ## The then branch -/

section Branch

variable {pre : List (Op A M)} {w : WhileOp A M} {m : TripCountedLoop A M} {b : BeforeShape A M}

variable {x cond : Operand} {rs : List ℕ}

theorem eval_keeps (ops : List (Op A M)) (hx : ∀ v ∈ x.uses, v ∉ ops.flatMap Op.results)
    (s : Env × Memory M) : x.eval (runOps ops s).1 = x.eval s.1 :=
  Operand.eval_congr fun v hv => runOps_keeps ops (hx v hv) s

/-- The then branch is one iteration, whatever the values of the before region. -/
theorem Accepted.runOps_then (h : Accepted pre w m b) {env env' : Env}
    (he : AgreeOff b.values env' env)
    (mem : Memory M) : (runOps b.body.thenOps (env', mem)).2 = m.iteration env mem := by
  rw [(runOps_agree he b.body.thenOps h.independent mem).2, ← runOps_filter_const]
  obtain ⟨v, v', w₁, w₂, hops⟩ := h.updates
  -- the step keeps its value through the body and the other update
  have hfree : ∀ u ∈ m.step.uses,
      u ∉ (b.body.thenOps.filter fun o => !o.isConst).flatMap Op.results := by
    intro u hu hm
    obtain ⟨o, ho, hr⟩ := mem_flatMap.1 hm
    exact (h.invariant u hu).2 (mem_flatMap.2 ⟨o, mem_of_mem_filter ho, hr⟩)
  rcases hops with hops | hops
  · rw [hops] at hfree
    simp only [flatMap_append, mem_append, not_or] at hfree
    have hd : ∀ u ∈ m.step.uses, u ≠ v := by
      rintro u hu rfl
      exact (hfree u hu).2.1 (by simp [updateOps, Op.results])
    rw [hops, runOps_append, runOps_append]
    set s := runOps m.body (env, mem) with hs
    have hstep : m.step.eval s.1 = m.step.eval env :=
      eval_keeps m.body (fun u hu => (hfree u hu).1) _
    have h₁ := runOps_update (A := A) .add v w₁ m.step m.iv s.1 s.2 hd
    have h₂ := runOps_update (A := A) .sub v' w₂ (.lit 1) m.trip
      (runOps (A := A) (updateOps .add v w₁ m.step m.iv) s).1
      (runOps (A := A) (updateOps .add v w₁ m.step m.iv) s).2 (by simp [Operand.uses])
    rw [show runOps (A := A) (updateOps .sub v' w₂ (.lit 1) m.trip)
        (runOps (updateOps .add v w₁ m.step m.iv) s) =
      runOps (updateOps .sub v' w₂ (.lit 1) m.trip) ((runOps (updateOps .add v w₁ m.step m.iv) s).1,
        (runOps (updateOps .add v w₁ m.step m.iv) s).2) from rfl, h₂, h₁, hstep]
    exact updates_comm s.2 _
  · rw [hops] at hfree
    simp only [flatMap_append, mem_append, not_or] at hfree
    have hd : ∀ u ∈ m.step.uses, u ≠ v := by
      rintro u hu rfl
      exact (hfree u hu).2.2 (by simp [updateOps, Op.results])
    rw [hops, runOps_append, runOps_append]
    set s := runOps m.body (env, mem) with hs
    set s' := runOps (A := A) (updateOps .sub v' w₂ (.lit 1) m.trip) s with hs'
    have hstep : m.step.eval s'.1 = m.step.eval env := by
      rw [hs', eval_keeps _ (fun u hu => (hfree u hu).2.1), hs]
      exact eval_keeps m.body (fun u hu => (hfree u hu).1) _
    have h₁ := runOps_update (A := A) .sub v' w₂ (.lit 1) m.trip s.1 s.2 (by simp [Operand.uses])
    have h₂ := runOps_update (A := A) .add v w₁ m.step m.iv s'.1 s'.2 hd
    have h₁' : s'.2 = s.2.set (A.cell m.trip) (s.2.cells (A.cell m.trip) - 1) := h₁
    rw [show runOps (A := A) (updateOps .add v w₁ m.step m.iv) s' =
      runOps (updateOps .add v w₁ m.step m.iv) (s'.1, s'.2) from rfl, h₂, hstep, h₁']
    rfl

/-! ## A turn -/

/-- The values when the `scf.if` is reached. -/
def BeforeShape.enter (b : BeforeShape A M) (env : Env) (x : ℤ) : Env :=
  Function.update (Function.update env b.loaded x) b.cmp (if 0 < x then 1 else 0)

theorem BeforeShape.enter_cmp (b : BeforeShape A M) (env : Env) (x : ℤ) :
    b.enter env x b.cmp = if 0 < x then 1 else 0 := by
  unfold enter
  rw [update_self]

theorem BeforeShape.enter_agree (b : BeforeShape A M) (env : Env) (x : ℤ) :
    AgreeOff b.values (b.enter env x) env := by
  intro v hv
  simp only [values, mem_cons, not_or] at hv
  unfold enter
  rw [update_of_ne hv.2.1, update_of_ne hv.1]

/-- The truncation of the result of the `scf.if`. -/
def BeforeShape.truncate (b : BeforeShape A M) (t : Turn M) : Turn M :=
  match b.trunc with
  | none => t
  | some (v, a) => (BeforeOp.trunci (A := A) v a).run t

@[simp] theorem BeforeShape.truncate_memory (b : BeforeShape A M) (t : Turn M) :
    (b.truncate t).memory = t.memory := by
  unfold truncate
  split <;> rfl

@[simp] theorem BeforeShape.truncate_entries (b : BeforeShape A M) (t : Turn M) :
    (b.truncate t).entries = t.entries := by
  unfold truncate
  split <;> rfl

theorem Accepted.turn_eq (h : Accepted pre w m b) (env : Env) (mem : Memory M) :
    w.turn env mem =
      b.truncate ((BeforeOp.ifOp b.body).run
        ⟨b.enter env (mem.cells (A.cell m.trip)), mem, []⟩) := by
  obtain ⟨hops, -⟩ := matchBefore_eq h.before
  have hfirst : (BeforeOp.cmpi (A := A) .sgt b.cmp (.val b.loaded) (.lit 0)).run
      ((BeforeOp.op (A := A) (Op.load b.loaded m.trip)).run (⟨env, mem, []⟩ : Turn M)) =
        ⟨b.enter env (mem.cells (A.cell m.trip)), mem, []⟩ := by
    show (⟨update (update env b.loaded (mem.cells (A.cell m.trip))) b.cmp
      (if Predicate.eval .sgt (update env b.loaded (mem.cells (A.cell m.trip)) b.loaded) 0
        then 1 else 0), mem, []⟩ : Turn M) = _
    rw [update_self]
    simp [Predicate.eval, BeforeShape.enter]
  unfold WhileOp.turn
  rw [← run_filter_const, hops, h.trip, foldl_append, foldl_cons, foldl_cons,
    foldl_cons, hfirst]
  unfold BeforeShape.truncate
  cases b.trunc with
  | none => rfl
  | some ta => rfl

theorem lookup_zip_of_not_mem {r : ℕ} (h : r ∉ rs) (xs : List ℤ) :
    (rs.zip xs).lookup r = none := by
  induction rs generalizing xs with
  | nil => rfl
  | cons r' rs ih =>
    rw [mem_cons, not_or] at h
    cases xs with
    | nil => rfl
    | cons x xs =>
      rw [zip_cons_cons, lookup_cons, beq_false_of_ne h.1]
      exact ih h.2 xs

/-- The results of the `scf.if` whose yields `yieldsOf` finds. -/
theorem lookup_yields {xs ys : List Operand} {r : ℕ} {y : Operand}
    (h : (rs.zip (xs.zip ys)).lookup r = some (x, y)) (f : Operand → ℤ) :
    (rs.zip (xs.map f)).lookup r = some (f x) ∧ (rs.zip (ys.map f)).lookup r = some (f y) := by
  induction rs generalizing xs ys with
  | nil => simp at h
  | cons r' rs ih =>
    cases xs with
    | nil => simp at h
    | cons x' xs =>
      cases ys with
      | nil => simp at h
      | cons y' ys =>
        simp only [zip_cons_cons, map_cons, lookup_cons] at h ⊢
        by_cases hr : r == r'
        · simp only [hr, Option.some.injEq, Prod.mk.injEq] at h ⊢
          rw [h.1, h.2]
          exact ⟨rfl, rfl⟩
        · simp only [hr] at h ⊢
          exact ih h

/-- The condition of a loop without truncation is the comparison. -/
theorem continuesAfterBody_none {b : BeforeShape A M}
    (h : continuesAfterBody cond b = true) (ht : b.trunc = none) : cond = .val b.cmp := by
  simpa [continuesAfterBody, ht] using h

/-- The condition of a loop with one is the truncation of a result with constant yields. -/
theorem continuesAfterBody_some {b : BeforeShape A M} {t : ℕ} {a : Operand}
    (h : continuesAfterBody cond b = true) (ht : b.trunc = some (t, a)) :
    ∃ r k, cond = .val t ∧ a = .val r ∧ b.body.yieldsOf r = some (.lit k, .lit 0) := by
  simp only [continuesAfterBody, ht, Bool.and_eq_true, decide_eq_true_eq] at h
  obtain ⟨hc, h⟩ := h
  cases a with
  | lit k => simp at h
  | val r =>
    simp only at h
    split at h
    · rename_i k k' hy
      simp only [Bool.and_eq_true, decide_eq_true_eq] at h
      rw [h.2] at hy
      exact ⟨r, k, hc, rfl, hy⟩
    · cases h

theorem runOps_const {ops : List (Op A M)} (h : ops.all Op.isConst = true) (s : Env × Memory M) :
    runOps ops s = s := by
  rw [← runOps_filter_const]
  have hf : ops.filter (fun o => !o.isConst) = [] := by
    apply filter_eq_nil_iff.2
    intro o ho
    simp [all_eq_true.1 h o ho]
  rw [hf]
  rfl

/-- With the trip counter at zero or below, a turn does nothing and ends the loop. -/
theorem Accepted.turn_stop (h : Accepted pre w m b) (hfresh : b.cmp ∉ b.body.results) (env : Env)
    (mem : Memory M) (ht : mem.cells (A.cell m.trip) ≤ 0) :
    (w.turn env mem).memory = mem ∧ (w.turn env mem).entries = [] ∧
      w.continues env mem = false := by
  obtain ⟨-, hcond⟩ := matchBefore_eq h.before
  set x := mem.cells (A.cell m.trip) with hx
  have hcmp : b.enter env x b.cmp = 0 := by
    rw [b.enter_cmp, if_neg (by omega)]
  have hif : ¬ b.body.cond.eval (b.enter env x) ≠ 0 := by
    rw [hcond]
    simpa [Operand.eval] using hcmp
  have hrun : ∃ env', (BeforeOp.ifOp b.body).run ⟨b.enter env x, mem, []⟩ = ⟨env', mem, []⟩ ∧
      env' b.cmp = 0 ∧ ∀ r k, b.body.yieldsOf r = some (.lit k, .lit 0) → env' r = 0 := by
    cases he : b.body.elseBlock with
    | none =>
      refine ⟨b.enter env x, by simp [BeforeOp.run, hif, he], hcmp, ?_⟩
      intro r k hr
      simp [IfOp.yieldsOf, he] at hr
    | some block =>
      obtain ⟨ops, yields⟩ := block
      have hno : runOps ops (b.enter env x, mem) = (b.enter env x, mem) := by
        apply runOps_const
        simpa [elseDoesNothing, he] using h.nothing
      refine ⟨bindResults (b.enter env x) b.body.results
        (yields.map fun y => y.eval (b.enter env x)),
        by simp [BeforeOp.run, hif, he, hno], ?_, ?_⟩
      · simp [bindResults, lookup_zip_of_not_mem hfresh, hcmp]
      · intro r k hr
        simp only [IfOp.yieldsOf, he] at hr
        have := (lookup_yields hr fun y => y.eval (b.enter env x)).2
        simp only [bindResults, this, Option.getD_some]
        rfl
  obtain ⟨env', hrun, hc, hy⟩ := hrun
  have hturn := h.turn_eq env mem
  rw [← hx, hrun] at hturn
  refine ⟨by rw [hturn]; simp, by rw [hturn]; simp, ?_⟩
  unfold WhileOp.continues
  rw [hturn]
  cases hb : b.trunc with
  | none =>
    rw [continuesAfterBody_none h.continuing hb]
    simp [BeforeShape.truncate, hb, Operand.eval, hc]
  | some ta =>
    obtain ⟨t, a⟩ := ta
    obtain ⟨r, k, hw, ha, hr⟩ := continuesAfterBody_some h.continuing hb
    simp [BeforeShape.truncate, hb, BeforeOp.run, hw, ha, Operand.eval, hy r k hr]

/-- With the trip counter above zero, a turn is one iteration. -/
theorem Accepted.turn_go (h : Accepted pre w m b) (hfresh : b.cmp ∉ b.body.results) (env : Env)
    (mem : Memory M) (ht : 0 < mem.cells (A.cell m.trip)) :
    (w.turn env mem).memory = m.iteration env mem ∧ (w.turn env mem).entries = [mem] ∧
      w.continues env mem = w.goesOn := by
  obtain ⟨-, hcond⟩ := matchBefore_eq h.before
  set x := mem.cells (A.cell m.trip) with hx
  have hcmp : b.enter env x b.cmp = 1 := by
    rw [b.enter_cmp, if_pos ht]
  have hif : b.body.cond.eval (b.enter env x) ≠ 0 := by
    rw [hcond]
    show b.enter env x b.cmp ≠ 0
    rw [hcmp]
    decide
  set s := runOps b.body.thenOps (b.enter env x, mem) with hs
  set env' := bindResults (b.enter env x) b.body.results
    (b.body.thenYield.map fun y => y.eval s.1) with he
  have hmem : s.2 = m.iteration env mem := h.runOps_then (b.enter_agree env x) mem
  have hrun : (BeforeOp.ifOp b.body).run ⟨b.enter env x, mem, []⟩ =
      ⟨env', m.iteration env mem, [mem]⟩ := by
    simp only [BeforeOp.run]
    rw [if_pos hif, ← hmem]
    rfl
  have hturn := h.turn_eq env mem
  rw [← hx, hrun] at hturn
  refine ⟨by rw [hturn]; simp, by rw [hturn]; simp, ?_⟩
  unfold WhileOp.continues WhileOp.goesOn
  rw [hturn, h.before]
  cases hb : b.trunc with
  | none =>
    rw [continuesAfterBody_none h.continuing hb]
    have hc : env' b.cmp = 1 := by
      simp [he, bindResults, lookup_zip_of_not_mem hfresh, hcmp]
    simp [BeforeShape.truncate, hb, Operand.eval, hc, BeforeShape.goesOn]
  | some ta =>
    obtain ⟨t, a⟩ := ta
    obtain ⟨r, k, hw, ha, hr⟩ := continuesAfterBody_some h.continuing hb
    have hk : env' r = k := by
      unfold IfOp.yieldsOf at hr
      split at hr
      · cases hr
      · have := (lookup_yields hr fun y => y.eval s.1).1
        simp only [he, bindResults, this, Option.getD_some]
        rfl
    simp [BeforeShape.truncate, hb, BeforeOp.run, hw, ha, Operand.eval, hk, BeforeShape.goesOn, hr]

end Branch

end CountedLoops
