/-
# The iteration space of an emitted loop

What the LoopRegion of `emit_loop` runs, compared with Fortran's rule for the
DO loop it stands for.  A bound or step that `_is_trivial_bound` keeps as a bare
name is read again before every iteration (`bareName`), a hoisted one is frozen
in front of the loop; and a symbolic step is always rendered as counting up.
`emitLoop_keepsIterationSpace_iff` is the exact condition under which the two
agree for every body.
-/
import DaceFortran.Builder.DoLoop

/-! ## Loops and their bodies -/

/-- The names a DO statement mentions. -/
def DoHeader.idents (h : DoHeader) : List Name :=
  h.iter :: (h.lower.idents ++ h.upper.idents ++ h.step.idents)

/-- A DO loop met when the builder's next free id is `nid`: its statement and
the names its body may assign.  Fortran does not let a body assign the DO
variable, and no body assigns the symbols this loop's header is about to mint. -/
structure DoLoop (nid : ℕ) where
  header : DoHeader
  assigned : Set Name
  iter_notMem : header.iter ∉ assigned
  header_old : ∀ x ∈ header.idents, ¬ x.MintedFrom nid
  assigned_old : ∀ x ∈ assigned, x.MintedFrom nid → x.MintedFrom (nid + 3)

/-- A body that assigns only names of `W`. -/
structure LoopBody (W : Set Name) where
  run : Store → Store
  frame : ∀ σ x, x ∉ W → run σ x = σ x

/-- The body that assigns nothing. -/
def LoopBody.skip (W : Set Name) : LoopBody W := ⟨id, fun _ _ _ => rfl⟩

/-- The body that assigns one name a constant. -/
def LoopBody.assign {W : Set Name} (x : Name) (v : ℤ) (hx : x ∈ W) : LoopBody W where
  run σ := σ.set x v
  frame σ _ hy := σ.set_of_ne v (fun h => hy (h ▸ hx))

/-- The name a bound or step is read from anew before every iteration: a bare
name that is no data array is not hoisted. -/
def bareName (b : SDFGBuilder) : Expr → Option Name
  | .var x => if x ∈ b.arrays then none else some x
  | _ => none

variable (I : Interp) (b : SDFGBuilder) {nid : ℕ} (L : DoLoop nid) (σ : Store)

namespace DoLoop

/-- The lower bound at loop entry. -/
def lo : ℤ := L.header.lower.eval I σ
/-- The upper bound at loop entry. -/
def hi : ℤ := L.header.upper.eval I σ
/-- The step at loop entry. -/
def step : ℤ := L.header.step.eval I σ
/-- The number of iterations Fortran performs. -/
def trips : ℕ := tripCount (L.lo I σ) (L.hi I σ) (L.step I σ)

/-- The region emitted for the loop. -/
def emitted : EmittedLoop := emitLoop b nid (nodeOf L.header)

/-- **Fortran's iteration space**: whatever the body does with the names it may
assign, the emitted region terminates and runs the body for exactly Fortran's
iterations, in order. -/
def KeepsIterationSpace : Prop :=
  ∀ body : LoopBody L.assigned, ∃ σ' : Store,
    (L.emitted b).Runs I body.run σ (iterations (L.lo I σ) (L.hi I σ) (L.step I σ)) σ'

/-- The loop doubles its variable instead of stepping it (`DO i = lo, hi, i`),
and meets Fortran's iterations all the same. -/
def DoublingAgrees : Prop :=
  (0 < L.step I σ ∧ (L.trips I σ = 0 ∨ (L.trips I σ = 1 ∧ L.hi I σ < 2 * L.lo I σ) ∨
      (L.trips I σ = 2 ∧ L.step I σ = L.lo I σ))) ∨
    (L.step I σ < 0 ∧ L.lo I σ = L.hi I σ ∧ 0 < L.lo I σ)

/-- When the emitted region keeps the iteration space: the upper bound is not
the DO variable itself; a symbolic step is positive; and the names the header
reads anew are not assigned by the body (unless the loop is empty, or bound and
step are one name and the lower bound is positive: then one iteration is all
there is). -/
def KeepsIterationsWhen : Prop :=
  bareName b L.header.upper ≠ some L.header.iter ∧
    if bareName b L.header.step = some L.header.iter then
      L.DoublingAgrees I σ ∧
        (L.trips I σ = 0 ∨ ∀ x, bareName b L.header.upper = some x → x ∉ L.assigned)
    else
      ((∃ c, L.header.step = .lit c) ∨ 0 < L.step I σ) ∧
        (L.trips I σ = 0 ∨
          ((∀ x, bareName b L.header.upper = some x → x ∉ L.assigned) ∧
            ∀ y, bareName b L.header.step = some y → y ∉ L.assigned) ∨
          (bareName b L.header.upper = bareName b L.header.step ∧
            bareName b L.header.step ≠ none ∧ 0 < L.lo I σ))

end DoLoop

/-! ## Hoisting -/

theorem isTrivialBound_of_bareName {e : Expr} {x : Name} (h : bareName b e = some x) :
    e = .var x ∧ isTrivialBound b e = true := by
  cases e with
  | var y =>
      by_cases hy : y ∈ b.arrays
      · simp [bareName, hy] at h
      · simp only [bareName, if_neg hy, Option.some.injEq] at h
        subst h
        simp [isTrivialBound, hy]
  | lit _ => simp [bareName] at h
  | load _ _ => simp [bareName] at h
  | add _ _ => simp [bareName] at h
  | app _ _ => simp [bareName] at h

/-- A trivial bound without a bare name is a literal. -/
theorem eq_lit_of_bareName_none {e : Expr} (ht : isTrivialBound b e = true)
    (h : bareName b e = none) : ∃ c, e = .lit c := by
  cases e with
  | lit c => exact ⟨c, rfl⟩
  | var y =>
      have hy : y ∉ b.arrays := by simpa [isTrivialBound] using ht
      simp [bareName, hy] at h
  | load _ _ => simp [isTrivialBound] at ht
  | add _ _ => simp [isTrivialBound] at ht
  | app _ _ => simp [isTrivialBound] at ht

theorem hoist_nid_le (e : Expr) (pfx : String) :
    nid ≤ (hoistBoundToSymbol b nid e pfx).nid ∧
      (hoistBoundToSymbol b nid e pfx).nid ≤ nid + 1 := by
  unfold hoistBoundToSymbol
  split_ifs <;> simp

/-- Hoisting assigns only the symbol it mints. -/
theorem runPre_hoist_of_ne (e : Expr) (pfx : String) {x : Name} (hx : x ≠ .minted pfx nid) :
    runPre I (hoistBoundToSymbol b nid e pfx).pre σ x = σ x := by
  unfold hoistBoundToSymbol
  split_ifs
  · rfl
  · exact σ.set_of_ne _ hx

/-- An expression that does not name the minted symbol keeps its value. -/
theorem eval_runPre_hoist_of_notMem (e e' : Expr) (pfx : String)
    (h : .minted pfx nid ∉ e'.idents) :
    e'.eval I (runPre I (hoistBoundToSymbol b nid e pfx).pre σ) = e'.eval I σ := by
  refine Expr.eval_congr I e' (fun x hx => runPre_hoist_of_ne I b σ e pfx ?_)
  rintro rfl
  exact h hx

/-- Hoisting freezes the value of the bound. -/
theorem eval_runPre_hoist (e : Expr) (pfx : String) :
    (hoistBoundToSymbol b nid e pfx).expr.eval I
      (runPre I (hoistBoundToSymbol b nid e pfx).pre σ) = e.eval I σ := by
  unfold hoistBoundToSymbol
  split_ifs
  · rfl
  · simp [runPre, Expr.eval]

/-- What the header uses for a bound: a literal, a bare name read anew, or a
symbol minted for it. -/
theorem hoist_expr_cases (e : Expr) (pfx : String) :
    (∃ x, bareName b e = some x ∧ (hoistBoundToSymbol b nid e pfx).expr = .var x) ∨
      (bareName b e = none ∧ ∃ c, (hoistBoundToSymbol b nid e pfx).expr = .lit c) ∨
      (bareName b e = none ∧
        (hoistBoundToSymbol b nid e pfx).expr = .var (.minted pfx nid)) := by
  cases hb : bareName b e with
  | some x =>
      obtain ⟨rfl, ht⟩ := isTrivialBound_of_bareName b hb
      exact Or.inl ⟨x, rfl, by simp [hoistBoundToSymbol, ht]⟩
  | none =>
      by_cases ht : isTrivialBound b e = true
      · obtain ⟨c, rfl⟩ := eq_lit_of_bareName_none b ht hb
        exact Or.inr (Or.inl ⟨rfl, c, by simp [hoistBoundToSymbol, ht]⟩)
      · exact Or.inr (Or.inr ⟨rfl, by simp [hoistBoundToSymbol, ht]⟩)

theorem runPre_append (p q : List (Name × Expr)) :
    runPre I (p ++ q) σ = runPre I q (runPre I p σ) := by
  simp [runPre, List.foldl_append]

/-! ## The emitted header -/

namespace DoLoop

/-- The upper bound as the header uses it. -/
def bound : Hoisted := hoistBoundToSymbol b nid L.header.upper "loopend"
/-- The lower bound as the header uses it. -/
def low : Hoisted := hoistBoundToSymbol b (L.bound b).nid L.header.lower "loopbegin"
/-- The step as the header uses it. -/
def incr : Hoisted := hoistBoundToSymbol b (L.low b).nid L.header.step "loopstep"

/-- The direction the header is rendered in: only a negative literal counts down. -/
def countsUp : Bool :=
  match L.header.step with
  | .lit c => decide (0 ≤ c)
  | _ => true

theorem nodeOf_lower (h : DoHeader) :
    (nodeOf h).loopLowerExpr.getD
      (.lit (if 0 ≤ (nodeOf h).loopLower then (nodeOf h).loopLower else 1)) = h.lower := by
  obtain ⟨iter, lower, upper, step⟩ := h
  cases lower with
  | lit c =>
      by_cases hc : c < 0
      · simp [nodeOf, traceLB, traceConstInt, hc]
      · simp [nodeOf, traceLB, traceConstInt, hc, not_lt.mp hc]
  | var _ => simp [nodeOf, traceLB, traceConstInt]
  | load _ _ => simp [nodeOf, traceLB, traceConstInt]
  | add _ _ => simp [nodeOf, traceLB, traceConstInt]
  | app _ _ => simp [nodeOf, traceLB, traceConstInt]

/-- The four renderings of the header in one form. -/
theorem emitted_eq :
    L.emitted b =
      { pre := (L.bound b).pre ++ (L.low b).pre ++ (L.incr b).pre
        region := ⟨L.header.iter, (L.low b).expr,
          if L.countsUp then .lt (.var L.header.iter) (.add (L.bound b).expr (.lit 1))
          else .ge (.var L.header.iter) (L.bound b).expr,
          .add (.var L.header.iter) (L.incr b).expr⟩ } := by
  unfold emitted emitLoop
  rw [nodeOf_lower]
  cases hstep : L.header.step with
  | lit c =>
      by_cases hc : 0 ≤ c <;>
        simp [nodeOf, hstep, traceConstInt, incr, countsUp, hoistBoundToSymbol,
          isTrivialBound, bound, low, hc]
  | var _ => simp [nodeOf, hstep, traceConstInt, incr, countsUp, bound, low]
  | load _ _ => simp [nodeOf, hstep, traceConstInt, incr, countsUp, bound, low]
  | add _ _ => simp [nodeOf, hstep, traceConstInt, incr, countsUp, bound, low]
  | app _ _ => simp [nodeOf, hstep, traceConstInt, incr, countsUp, bound, low]

@[simp] theorem emitted_loopVar : (L.emitted b).region.loopVar = L.header.iter := by
  rw [emitted_eq]

/-- The region's test: the loop variable has not passed the bound. -/
theorem condition_holds_iff (τ : Store) :
    (L.emitted b).region.conditionExpr.holds I τ ↔
      if L.countsUp then τ L.header.iter [] ≤ (L.bound b).expr.eval I τ
      else (L.bound b).expr.eval I τ ≤ τ L.header.iter [] := by
  rw [emitted_eq]
  cases L.countsUp
  · simp [Condition.holds, Expr.eval]
  · simp [Condition.holds, Expr.eval]

theorem low_nid_le : nid ≤ (L.low b).nid ∧ (L.low b).nid ≤ nid + 2 := by
  have hbound : nid ≤ (L.bound b).nid ∧ (L.bound b).nid ≤ nid + 1 :=
    hoist_nid_le b L.header.upper "loopend"
  have hlow : (L.bound b).nid ≤ (L.low b).nid ∧ (L.low b).nid ≤ (L.bound b).nid + 1 :=
    hoist_nid_le b L.header.lower "loopbegin"
  omega

variable {e : Expr} {n : ℕ} {pfx : String} {x : Name}

/-- The names a hoisted bound is read through. -/
theorem idents_hoist
    (hx : x ∈ (hoistBoundToSymbol b n e pfx).expr.idents) :
    x = .minted pfx n ∨ bareName b e = some x := by
  rcases @hoist_expr_cases b n e pfx with ⟨y, hy, he⟩ | ⟨-, c, he⟩ | ⟨-, he⟩
  · rw [he] at hx
    simp only [Expr.idents, List.mem_singleton] at hx
    exact Or.inr (hx ▸ hy)
  · rw [he] at hx
    simp [Expr.idents] at hx
  · rw [he] at hx
    simp only [Expr.idents, List.mem_singleton] at hx
    exact Or.inl hx

/-- A bare name is one of the names of its bound. -/
theorem mem_idents_of_bareName (h : bareName b e = some x) :
    x ∈ e.idents := by
  obtain ⟨rfl, -⟩ := isTrivialBound_of_bareName b h
  simp [Expr.idents]

theorem upper_mem (hx : x ∈ L.header.upper.idents) : x ∈ L.header.idents := by
  simp [DoHeader.idents, hx]

theorem lower_mem (hx : x ∈ L.header.lower.idents) : x ∈ L.header.idents := by
  simp [DoHeader.idents, hx]

theorem step_mem (hx : x ∈ L.header.step.idents) : x ∈ L.header.idents := by
  simp [DoHeader.idents, hx]

/-- A minted symbol is no name of the header. -/
theorem minted_notMem {p : String} (hn : nid ≤ n) :
    Name.minted p n ∉ L.header.idents :=
  fun h => L.header_old _ h hn

theorem iter_ne_minted {p : String} (hn : nid ≤ n) : L.header.iter ≠ .minted p n := by
  intro h
  exact L.minted_notMem (p := p) hn (h ▸ List.mem_cons_self)

/-- A hoisted bound does not read a symbol minted for another one. -/
theorem minted_notMem_hoist {n m : ℕ} {pfx pfx' : String}
    (he : ∀ x ∈ e.idents, x ∈ L.header.idents) (hm : nid ≤ m) (hne : pfx' ≠ pfx) :
    Name.minted pfx' m ∉ (hoistBoundToSymbol b n e pfx).expr.idents := by
  intro h
  rcases idents_hoist b h with h | h
  · exact hne (Name.minted.inj h).1
  · exact L.minted_notMem hm (he _ (mem_idents_of_bareName b h))

/-- The store after the assignments in front of the region. -/
def staged : Store := runPre I (L.emitted b).pre σ

theorem staged_eq :
    L.staged I b σ =
      runPre I (L.incr b).pre (runPre I (L.low b).pre (runPre I (L.bound b).pre σ)) := by
  unfold staged
  rw [emitted_eq]
  simp only [runPre_append]

/-- Staging gives each part of the header its value at loop entry. -/
theorem staged_bound : (L.bound b).expr.eval I (L.staged I b σ) = L.hi I σ := by
  have hlow := (L.low_nid_le b).1
  have hbound : nid ≤ (L.bound b).nid := (hoist_nid_le b L.header.upper "loopend").1
  rw [staged_eq]
  calc (L.bound b).expr.eval I (runPre I (L.incr b).pre _)
      = (L.bound b).expr.eval I (runPre I (L.low b).pre (runPre I (L.bound b).pre σ)) :=
        eval_runPre_hoist_of_notMem I b _ _ _ _
          (L.minted_notMem_hoist b (fun _ => L.upper_mem) hlow (by decide))
    _ = (L.bound b).expr.eval I (runPre I (L.bound b).pre σ) :=
        eval_runPre_hoist_of_notMem I b _ _ _ _
          (L.minted_notMem_hoist b (fun _ => L.upper_mem) hbound (by decide))
    _ = L.hi I σ := eval_runPre_hoist I b σ _ _

theorem staged_low : (L.low b).expr.eval I (L.staged I b σ) = L.lo I σ := by
  have hlow := (L.low_nid_le b).1
  rw [staged_eq]
  calc (L.low b).expr.eval I (runPre I (L.incr b).pre _)
      = (L.low b).expr.eval I (runPre I (L.low b).pre (runPre I (L.bound b).pre σ)) :=
        eval_runPre_hoist_of_notMem I b _ _ _ _
          (L.minted_notMem_hoist b (fun _ => L.lower_mem) hlow (by decide))
    _ = L.header.lower.eval I (runPre I (L.bound b).pre σ) := eval_runPre_hoist I b _ _ _
    _ = L.lo I σ := eval_runPre_hoist_of_notMem I b σ _ _ _
          (fun h => L.minted_notMem le_rfl (L.lower_mem h))

theorem staged_incr : (L.incr b).expr.eval I (L.staged I b σ) = L.step I σ := by
  have hbound : nid ≤ (L.bound b).nid := (hoist_nid_le b L.header.upper "loopend").1
  rw [staged_eq]
  calc (L.incr b).expr.eval I (runPre I (L.incr b).pre _)
      = L.header.step.eval I (runPre I (L.low b).pre (runPre I (L.bound b).pre σ)) :=
        eval_runPre_hoist I b _ _ _
    _ = L.header.step.eval I (runPre I (L.bound b).pre σ) :=
        eval_runPre_hoist_of_notMem I b _ _ _ _
          (fun h => L.minted_notMem hbound (L.step_mem h))
    _ = L.step I σ := eval_runPre_hoist_of_notMem I b σ _ _ _
          (fun h => L.minted_notMem le_rfl (L.step_mem h))

/-- The store in which the test is made first. -/
theorem entry_eq :
    (L.emitted b).entry I σ = (L.staged I b σ).set L.header.iter (L.lo I σ) := by
  have hlow : (L.emitted b).region.initializeExpr.eval I (L.staged I b σ) = L.lo I σ := by
    rw [emitted_eq]
    exact L.staged_low I b σ
  show (L.staged I b σ).set (L.emitted b).region.loopVar _ = _
  rw [emitted_loopVar]
  exact congrArg _ hlow

@[simp] theorem entry_iter : (L.emitted b).entry I σ L.header.iter [] = L.lo I σ := by
  rw [entry_eq, Store.set_same]

/-- A part of the header that is not the DO variable keeps its value when the
variable is initialised. -/
theorem iter_notMem_hoist (hn : nid ≤ n)
    (hb : bareName b e ≠ some L.header.iter) :
    L.header.iter ∉ (hoistBoundToSymbol b n e pfx).expr.idents := by
  intro h
  rcases idents_hoist b h with h | h
  · exact L.iter_ne_minted hn h
  · exact hb h

theorem entry_bound (hb : bareName b L.header.upper ≠ some L.header.iter) :
    (L.bound b).expr.eval I ((L.emitted b).entry I σ) = L.hi I σ := by
  rw [entry_eq]
  calc (L.bound b).expr.eval I ((L.staged I b σ).set L.header.iter (L.lo I σ))
      = (L.bound b).expr.eval I (L.staged I b σ) :=
        Expr.eval_set I _ _ (L.iter_notMem_hoist b le_rfl hb)
    _ = L.hi I σ := L.staged_bound I b σ

theorem entry_incr (hb : bareName b L.header.step ≠ some L.header.iter) :
    (L.incr b).expr.eval I ((L.emitted b).entry I σ) = L.step I σ := by
  rw [entry_eq]
  calc (L.incr b).expr.eval I ((L.staged I b σ).set L.header.iter (L.lo I σ))
      = (L.incr b).expr.eval I (L.staged I b σ) :=
        Expr.eval_set I _ _ (L.iter_notMem_hoist b (L.low_nid_le b).1 hb)
    _ = L.step I σ := L.staged_incr I b σ

/-! ## Iterates -/

/-- A part of the header no iteration changes: it is hoisted or literal, or a
bare name that neither the loop nor its body assigns. -/
def Frozen (e : Expr) : Prop :=
  ∀ x, bareName b e = some x → x ≠ L.header.iter ∧ x ∉ L.assigned

theorem frozen_hoist (hn : nid ≤ n) (hn' : n < nid + 3)
    (hf : L.Frozen b e) (hx : x ∈ (hoistBoundToSymbol b n e pfx).expr.idents) :
    x ≠ L.header.iter ∧ x ∉ L.assigned := by
  rcases idents_hoist b hx with rfl | h
  · refine ⟨fun h => L.iter_ne_minted hn h.symm, fun h => ?_⟩
    have hlate : nid + 3 ≤ n := L.assigned_old _ h hn
    omega
  · exact hf x h

variable (body : LoopBody L.assigned)

/-- One iteration of the emitted region. -/
def next (τ : Store) : Store := (L.emitted b).region.iterate I body.run τ

theorem next_eq (τ : Store) :
    L.next I b body τ = (body.run τ).set L.header.iter
      (τ L.header.iter [] + (L.incr b).expr.eval I (body.run τ)) := by
  unfold next LoopRegion.iterate
  rw [emitted_loopVar, emitted_eq]
  simp [Expr.eval, body.frame τ _ L.iter_notMem]

@[simp] theorem next_iter (τ : Store) :
    L.next I b body τ L.header.iter [] =
      τ L.header.iter [] + (L.incr b).expr.eval I (body.run τ) := by
  rw [next_eq, Store.set_same]

/-- An expression one iteration with this body does not change. -/
def Kept (e : Expr) : Prop :=
  ∀ x ∈ e.idents, x ≠ L.header.iter ∧ ∀ τ, body.run τ x = τ x

theorem kept_of_frozen (hn : nid ≤ n) (hn' : n < nid + 3)
    (hf : L.Frozen b e) : L.Kept body (hoistBoundToSymbol b n e pfx).expr := by
  intro x hx
  obtain ⟨hiter, hbody⟩ := L.frozen_hoist b hn hn' hf hx
  exact ⟨hiter, fun τ => body.frame τ x hbody⟩

theorem kept_skip (hn : nid ≤ n)
    (hb : bareName b e ≠ some L.header.iter) :
    L.Kept (LoopBody.skip L.assigned) (hoistBoundToSymbol b n e pfx).expr := by
  intro x hx
  refine ⟨?_, fun _ => rfl⟩
  rintro rfl
  exact L.iter_notMem_hoist b hn hb hx

theorem kept_assign {z : Name} (v : ℤ)
    (hz : z ∈ L.assigned) (hn : nid ≤ n) (hn' : n < nid + 3)
    (hb : bareName b e ≠ some L.header.iter) (hbz : bareName b e ≠ some z) :
    L.Kept (LoopBody.assign z v hz) (hoistBoundToSymbol b n e pfx).expr := by
  intro x hx
  refine ⟨?_, fun τ => τ.set_of_ne v ?_⟩
  · rintro rfl
    exact L.iter_notMem_hoist b hn hb hx
  · rintro rfl
    rcases idents_hoist b hx with rfl | h
    · have hlate : nid + 3 ≤ n := L.assigned_old _ hz hn
      omega
    · exact hbz h

variable {body}

theorem eval_body_of_kept (he : L.Kept body e) (τ : Store) :
    e.eval I (body.run τ) = e.eval I τ :=
  Expr.eval_congr I e (fun x hx => (he x hx).2 τ)

theorem eval_next_of_kept (he : L.Kept body e) (τ : Store) :
    e.eval I (L.next I b body τ) = e.eval I τ := by
  rw [next_eq, Expr.eval_set I _ _ (fun h => (he _ h).1 rfl)]
  exact L.eval_body_of_kept I he τ

/-- A kept expression has its entry value in every iterate. -/
theorem eval_iterate_of_kept (he : L.Kept body e) (τ : Store) (k : ℕ) :
    e.eval I ((L.next I b body)^[k] τ) = e.eval I τ := by
  induction k with
  | zero => rfl
  | succ k ih => rw [Function.iterate_succ_apply', L.eval_next_of_kept I b he, ih]

/-- With a kept step the loop variable runs through `lo, lo + s, ...`. -/
theorem iterate_iter_of_kept (hincr : L.Kept body (L.incr b).expr)
    (hb : bareName b L.header.step ≠ some L.header.iter) (k : ℕ) :
    (L.next I b body)^[k] ((L.emitted b).entry I σ) L.header.iter [] =
      L.lo I σ + k * L.step I σ := by
  induction k with
  | zero => simp
  | succ k ih =>
      rw [Function.iterate_succ_apply', next_iter, ih, L.eval_body_of_kept I hincr,
        L.eval_iterate_of_kept I b hincr, L.entry_incr I b σ hb]
      push_cast
      ring

/-- A step that is the DO variable doubles it. -/
theorem next_iter_of_step_iter (hb : bareName b L.header.step = some L.header.iter)
    (τ : Store) :
    L.next I b body τ L.header.iter [] = 2 * τ L.header.iter [] := by
  obtain ⟨hstep, ht⟩ := isTrivialBound_of_bareName b hb
  have hincr : (L.incr b).expr = .var L.header.iter := by
    unfold incr hoistBoundToSymbol
    rw [if_pos ht, hstep]
  rw [next_iter, hincr]
  simp only [Expr.eval, body.frame τ _ L.iter_notMem]
  ring

/-! ## The test against the trip count -/

/-- The header counts up exactly when the step is positive. -/
theorem countsUp_iff (hs : L.step I σ ≠ 0)
    (hdir : (∃ c, L.header.step = .lit c) ∨ 0 < L.step I σ) :
    L.countsUp = true ↔ 0 < L.step I σ := by
  cases hstep : L.header.step with
  | lit c =>
      have hval : L.step I σ = c := by rw [step, hstep, Expr.eval]
      rw [hval] at hs ⊢
      simp only [countsUp, hstep, decide_eq_true_eq]
      omega
  | var _ => simpa [countsUp, hstep] using hdir
  | load _ _ => simpa [countsUp, hstep] using hdir
  | add _ _ => simpa [countsUp, hstep] using hdir
  | app _ _ => simpa [countsUp, hstep] using hdir

/-- While the header's bound has its entry value, the region's test at
`lo + k * s` is Fortran's test for iteration `k`. -/
theorem guard_iff (hs : L.step I σ ≠ 0)
    (hdir : (∃ c, L.header.step = .lit c) ∨ 0 < L.step I σ) {τ : Store} {k : ℕ}
    (hiter : τ L.header.iter [] = L.lo I σ + k * L.step I σ)
    (hbound : (L.bound b).expr.eval I τ = L.hi I σ) :
    (L.emitted b).region.conditionExpr.holds I τ ↔ k < L.trips I σ := by
  rw [condition_holds_iff, hiter, hbound]
  rcases lt_or_gt_of_ne hs with hneg | hpos
  · have hup : ¬ L.countsUp = true := fun h =>
      absurd ((L.countsUp_iff I σ hs hdir).mp h) (by linarith)
    rw [if_neg hup]
    exact (lt_tripCount_iff_of_neg hneg k).symm
  · rw [if_pos ((L.countsUp_iff I σ hs hdir).mpr hpos)]
    exact (lt_tripCount_iff_of_pos hpos k).symm

/-- A run whose loop variable follows Fortran's values and whose tests agree is
a run over Fortran's iterations. -/
theorem runs_iterations
    (hval : ∀ k, k < L.trips I σ →
      (L.next I b body)^[k] ((L.emitted b).entry I σ) L.header.iter [] =
        L.lo I σ + k * L.step I σ)
    (hguard : ∀ k, k < L.trips I σ → (L.emitted b).region.conditionExpr.holds I
      ((L.next I b body)^[k] ((L.emitted b).entry I σ)))
    (hstop : ¬ (L.emitted b).region.conditionExpr.holds I
      ((L.next I b body)^[L.trips I σ] ((L.emitted b).entry I σ))) :
    ∃ σ', (L.emitted b).Runs I body.run σ
      (iterations (L.lo I σ) (L.hi I σ) (L.step I σ)) σ' := by
  have hrun : (L.emitted b).Runs I body.run σ ((List.range (L.trips I σ)).map (fun k =>
      (L.next I b body)^[k] ((L.emitted b).entry I σ) (L.emitted b).region.loopVar [])) _ :=
    WhileLoop.runs_of_iterate (L.trips I σ) hguard hstop
  have hvalues : (List.range (L.trips I σ)).map (fun k =>
      (L.next I b body)^[k] ((L.emitted b).entry I σ) (L.emitted b).region.loopVar []) =
      iterations (L.lo I σ) (L.hi I σ) (L.step I σ) := by
    refine List.map_congr_left (fun k hk => ?_)
    rw [emitted_loopVar]
    exact hval k (List.mem_range.mp hk)
  exact ⟨_, hvalues ▸ hrun⟩

/-! ## The condition is enough -/

/-- With a frozen bound and a frozen step the region keeps the iteration space. -/
theorem keeps_of_frozen (hs : L.step I σ ≠ 0)
    (hdir : (∃ c, L.header.step = .lit c) ∨ 0 < L.step I σ)
    (hbound : L.Frozen b L.header.upper) (hincr : L.Frozen b L.header.step) :
    L.KeepsIterationSpace I b σ := by
  intro body
  have hlow := L.low_nid_le b
  have hkb : L.Kept body (L.bound b).expr := L.kept_of_frozen b body le_rfl (by omega) hbound
  have hki : L.Kept body (L.incr b).expr :=
    L.kept_of_frozen b body hlow.1 (by omega) hincr
  have hval := fun k => L.iterate_iter_of_kept I b σ hki (fun h => (hincr _ h).1 rfl) k
  have hhi : ∀ k, (L.bound b).expr.eval I
      ((L.next I b body)^[k] ((L.emitted b).entry I σ)) = L.hi I σ := fun k => by
    rw [L.eval_iterate_of_kept I b hkb, L.entry_bound I b σ (fun h => (hbound _ h).1 rfl)]
  have hguard := fun k => L.guard_iff I b σ hs hdir (hval k) (hhi k)
  exact L.runs_iterations I b σ (fun k _ => hval k) (fun k hk => (hguard k).mpr hk)
    (fun h => lt_irrefl _ ((hguard _).mp h))

/-- An empty loop is kept empty. -/
theorem keeps_of_trips_zero (hs : L.step I σ ≠ 0)
    (hdir : (∃ c, L.header.step = .lit c) ∨ 0 < L.step I σ)
    (hb : bareName b L.header.upper ≠ some L.header.iter) (h0 : L.trips I σ = 0) :
    L.KeepsIterationSpace I b σ := by
  intro body
  refine L.runs_iterations I b σ (fun k hk => by omega) (fun k hk => by omega) ?_
  rw [h0]
  intro h
  have hentry : 0 < L.trips I σ :=
    (L.guard_iff I b σ hs hdir (by simp) (L.entry_bound I b σ hb)).mp h
  omega

/-- `DO i = lo, n, n` with a positive `lo` runs at most once, whatever the body
assigns to `n`. -/
theorem keeps_of_bound_eq_step (hs : L.step I σ ≠ 0) (hpos : 0 < L.step I σ)
    {y : Name} (hy : y ≠ L.header.iter) (hbound : bareName b L.header.upper = some y)
    (hincr : bareName b L.header.step = some y) (hlo : 0 < L.lo I σ) :
    L.KeepsIterationSpace I b σ := by
  have hne : bareName b L.header.upper ≠ some L.header.iter := by
    rw [hbound]
    exact fun h => hy (Option.some.inj h)
  obtain ⟨hub, htb⟩ := isTrivialBound_of_bareName b hbound
  obtain ⟨hui, hti⟩ := isTrivialBound_of_bareName b hincr
  have hbe : (L.bound b).expr = .var y := by
    unfold bound hoistBoundToSymbol
    rw [if_pos htb, hub]
  have hie : (L.incr b).expr = .var y := by
    unfold incr hoistBoundToSymbol
    rw [if_pos hti, hui]
  have hhi : L.hi I σ = L.step I σ := by rw [hi, step, hub, hui]
  have htrips : L.trips I σ ≤ 1 := by
    by_contra hlt
    have h1 : 1 < L.trips I σ := by omega
    have hle := (lt_tripCount_iff_of_pos hpos 1).mp h1
    push_cast at hle
    linarith
  rcases Nat.eq_zero_or_pos (L.trips I σ) with h0 | h0
  · exact L.keeps_of_trips_zero I b σ hs (Or.inr hpos) hne h0
  · have h1 : L.trips I σ = 1 := by omega
    intro body
    refine L.runs_iterations I b σ (fun k hk => ?_) (fun k hk => ?_) ?_
    · have hk0 : k = 0 := by omega
      subst hk0
      simp
    · have hk0 : k = 0 := by omega
      subst hk0
      exact (L.guard_iff I b σ hs (Or.inr hpos) (by simp) (L.entry_bound I b σ hne)).mpr h0
    · rw [h1, condition_holds_iff, if_pos ((L.countsUp_iff I σ hs (Or.inr hpos)).mpr hpos)]
      simp only [Function.iterate_one, next_iter, entry_iter, hbe, hie, Expr.eval]
      rw [next_eq, Store.set_of_ne _ _ hy]
      linarith

/-- `DO i = lo, hi, i` under `DoublingAgrees`. -/
theorem keeps_of_doubling (hb : bareName b L.header.upper ≠ some L.header.iter)
    (hincr : bareName b L.header.step = some L.header.iter) (hd : L.DoublingAgrees I σ)
    (hfree : L.trips I σ = 0 ∨ ∀ x, bareName b L.header.upper = some x → x ∉ L.assigned) :
    L.KeepsIterationSpace I b σ := by
  have hup : L.countsUp = true := by
    obtain ⟨hstep, -⟩ := isTrivialBound_of_bareName b hincr
    simp [countsUp, hstep]
  intro body
  have hentry := L.entry_bound I b σ hb
  -- The loop variable doubles, so at most two iterations can agree.
  have hv1 : L.next I b body ((L.emitted b).entry I σ) L.header.iter [] = 2 * L.lo I σ := by
    rw [L.next_iter_of_step_iter I b hincr, entry_iter]
  have hv2 : L.next I b body (L.next I b body ((L.emitted b).entry I σ)) L.header.iter [] =
      2 * (2 * L.lo I σ) := by
    rw [L.next_iter_of_step_iter I b hincr, hv1]
  have hguard : ∀ τ, (L.emitted b).region.conditionExpr.holds I τ ↔
      τ L.header.iter [] ≤ (L.bound b).expr.eval I τ := fun τ => by
    rw [condition_holds_iff, if_pos hup]
  rcases Nat.eq_zero_or_pos (L.trips I σ) with h0 | h0
  · have hstop : ¬ L.lo I σ ≤ L.hi I σ := by
      rcases hd with ⟨hpos, -⟩ | ⟨hneg, heq, -⟩
      · intro h
        have := (lt_tripCount_iff_of_pos hpos 0).mpr (by simpa using h)
        exact absurd this (by rw [← trips, h0]; omega)
      · have := (lt_tripCount_iff_of_neg hneg 0).mpr (by simpa using heq.ge)
        exact absurd this (by rw [← trips, h0]; omega)
    refine L.runs_iterations I b σ (fun k hk => by omega) (fun k hk => by omega) ?_
    rw [h0, hguard]
    simpa [hentry] using hstop
  · have hfrozen : L.Frozen b L.header.upper := fun x hx =>
      ⟨fun h => hb (h ▸ hx), (hfree.resolve_left (by omega)) x hx⟩
    have hkept : L.Kept body (L.bound b).expr :=
      L.kept_of_frozen b body le_rfl (by omega) hfrozen
    have hhi : ∀ k, (L.bound b).expr.eval I
        ((L.next I b body)^[k] ((L.emitted b).entry I σ)) = L.hi I σ := fun k => by
      rw [L.eval_iterate_of_kept I b hkept, hentry]
    have hone : ∀ (_ : L.trips I σ = 1) (_ : L.lo I σ ≤ L.hi I σ)
        (_ : L.hi I σ < 2 * L.lo I σ), ∃ σ', (L.emitted b).Runs I body.run σ
          (iterations (L.lo I σ) (L.hi I σ) (L.step I σ)) σ' := by
      intro h1 hle hlt
      refine L.runs_iterations I b σ (fun k hk => ?_) (fun k hk => ?_) ?_
      · obtain rfl : k = 0 := by omega
        simp
      · obtain rfl : k = 0 := by omega
        rw [hguard, hhi]
        simpa using hle
      · rw [h1, hguard, hhi]
        simp only [Function.iterate_one, hv1]
        linarith
    rcases hd with ⟨hpos, h | ⟨h1, hlt⟩ | ⟨h2, hstep⟩⟩ | ⟨hneg, heq, hlo⟩
    · omega
    · exact hone h1 (by simpa using (lt_tripCount_iff_of_pos hpos 0).mp h0) hlt
    · have hle1 := (lt_tripCount_iff_of_pos hpos 1).mp (by rw [← trips, h2]; omega)
      have hgt2 : ¬ 2 < L.trips I σ := by omega
      rw [trips, lt_tripCount_iff_of_pos hpos 2] at hgt2
      push_cast at hle1 hgt2
      refine L.runs_iterations I b σ (fun k hk => ?_) (fun k hk => ?_) ?_
      · obtain rfl | rfl : k = 0 ∨ k = 1 := by omega
        · simp
        · simp only [Function.iterate_one, hv1, Nat.cast_one]
          linarith
      · obtain rfl | rfl : k = 0 ∨ k = 1 := by omega
        · rw [hguard, hhi]
          simp only [Function.iterate_zero, id_eq, entry_iter]
          linarith
        · rw [hguard, hhi]
          simp only [Function.iterate_one, hv1]
          linarith
      · rw [h2, hguard, hhi]
        simp only [Function.iterate_succ_apply', Function.iterate_zero, id_eq, hv2]
        linarith
    · have h1 : L.trips I σ = 1 := by
        have hgt1 : ¬ 1 < L.trips I σ := by
          rw [trips, lt_tripCount_iff_of_neg hneg 1]
          push_cast
          linarith
        omega
      exact hone h1 heq.le (by linarith)

/-- **The condition keeps the iteration space.** -/
theorem keeps_of_when (hs : L.step I σ ≠ 0) (h : L.KeepsIterationsWhen I b σ) :
    L.KeepsIterationSpace I b σ := by
  obtain ⟨hb, h⟩ := h
  split_ifs at h with hiter
  · exact L.keeps_of_doubling I b σ hb hiter h.1 h.2
  · obtain ⟨hdir, h0 | ⟨hfb, hfi⟩ | ⟨heq, hne, hlo⟩⟩ := h
    · exact L.keeps_of_trips_zero I b σ hs hdir hb h0
    · exact L.keeps_of_frozen I b σ hs hdir
        (fun x hx => ⟨fun h => hb (h ▸ hx), hfb x hx⟩)
        (fun y hy => ⟨fun h => hiter (h ▸ hy), hfi y hy⟩)
    · obtain ⟨y, hy⟩ := Option.ne_none_iff_exists'.mp hne
      have hpos : 0 < L.step I σ := by
        refine hdir.resolve_left ?_
        rintro ⟨c, hc⟩
        rw [hc] at hne
        exact hne rfl
      exact L.keeps_of_bound_eq_step I b σ hs hpos (fun h => hiter (h ▸ hy))
        (heq.trans hy) hy hlo

/-! ## The condition is needed -/

section Necessity

variable {I b L σ}

/-- The three readings of a run over Fortran's iterations: its tests pass, its
loop variable has Fortran's values, and the test after the last one fails. -/
theorem guard_of_keeps (h : L.KeepsIterationSpace I b σ) (body : LoopBody L.assigned)
    {k : ℕ} (hk : k < L.trips I σ) :
    (L.emitted b).region.conditionExpr.holds I
        ((L.next I b body)^[k] ((L.emitted b).entry I σ)) ∧
      (L.next I b body)^[k] ((L.emitted b).entry I σ) L.header.iter [] =
        L.lo I σ + k * L.step I σ := by
  obtain ⟨σ', hrun⟩ := h body
  have hlen : k < (iterations (L.lo I σ) (L.hi I σ) (L.step I σ)).length := by
    simpa [trips] using hk
  refine ⟨hrun.guard hlen, ?_⟩
  have hget := hrun.getElem hlen
  rw [emitted_loopVar] at hget
  exact hget.symm.trans (by simp [iterations])

theorem stop_of_keeps (h : L.KeepsIterationSpace I b σ) (body : LoopBody L.assigned) :
    ¬ (L.emitted b).region.conditionExpr.holds I
        ((L.next I b body)^[L.trips I σ] ((L.emitted b).entry I σ)) := by
  obtain ⟨σ', hrun⟩ := h body
  have hstop := hrun.stop
  rw [length_iterations] at hstop
  exact hstop

/-- A bound that is the DO variable itself never stops the region. -/
theorem bound_ne_iter_of_keeps (h : L.KeepsIterationSpace I b σ) :
    bareName b L.header.upper ≠ some L.header.iter := by
  intro hb
  obtain ⟨hub, htb⟩ := isTrivialBound_of_bareName b hb
  have hbe : (L.bound b).expr = .var L.header.iter := by
    unfold bound hoistBoundToSymbol
    rw [if_pos htb, hub]
  refine stop_of_keeps h (LoopBody.skip L.assigned) ?_
  rw [condition_holds_iff, hbe]
  simp [Expr.eval]

/-- A symbolic step that is negative runs the region forever, or not at all. -/
theorem direction_of_keeps (hs : L.step I σ ≠ 0) (h : L.KeepsIterationSpace I b σ)
    (hiter : bareName b L.header.step ≠ some L.header.iter) :
    (∃ c, L.header.step = .lit c) ∨ 0 < L.step I σ := by
  by_contra hcon
  obtain ⟨hlit, hnpos⟩ := not_or.mp hcon
  have hneg : L.step I σ < 0 := lt_of_le_of_ne (not_lt.mp hnpos) hs
  have hup : L.countsUp = true := by
    unfold countsUp
    split
    · rename_i c hc
      exact absurd ⟨c, hc⟩ hlit
    · rfl
  have hb := bound_ne_iter_of_keeps h
  have hkb : L.Kept (LoopBody.skip L.assigned) (L.bound b).expr := L.kept_skip b le_rfl hb
  have hki : L.Kept (LoopBody.skip L.assigned) (L.incr b).expr :=
    L.kept_skip b (L.low_nid_le b).1 hiter
  have hguard : ∀ k, (L.emitted b).region.conditionExpr.holds I
      ((L.next I b (LoopBody.skip L.assigned))^[k] ((L.emitted b).entry I σ)) ↔
        L.lo I σ + k * L.step I σ ≤ L.hi I σ := fun k => by
    rw [condition_holds_iff, if_pos hup, L.iterate_iter_of_kept I b σ hki hiter,
      L.eval_iterate_of_kept I b hkb, L.entry_bound I b σ hb]
  rcases le_or_gt (L.lo I σ) (L.hi I σ) with hle | hgt
  · refine stop_of_keeps h (LoopBody.skip L.assigned) ((hguard _).mpr ?_)
    have : (L.trips I σ : ℤ) * L.step I σ ≤ 0 :=
      mul_nonpos_of_nonneg_of_nonpos (Int.natCast_nonneg _) hneg.le
    linarith
  · have h0 : 0 < L.trips I σ :=
      (lt_tripCount_iff_of_neg hneg 0).mpr (by simpa using hgt.le)
    have hle := (hguard 0).mp (guard_of_keeps h _ h0).1
    simp only [Nat.cast_zero, zero_mul, add_zero] at hle
    linarith

/-- A step name the body may assign breaks a nonempty loop, unless bound and
step are that one name and the lower bound is positive. -/
theorem step_notMem_of_keeps (hs : L.step I σ ≠ 0) (h : L.KeepsIterationSpace I b σ)
    (h0 : 0 < L.trips I σ) {y : Name} (hy : bareName b L.header.step = some y)
    (hiter : y ≠ L.header.iter)
    (hcon : ¬ (bareName b L.header.upper = bareName b L.header.step ∧ 0 < L.lo I σ)) :
    y ∉ L.assigned := by
  intro hmem
  have hb := bound_ne_iter_of_keeps h
  have hb' : bareName b L.header.step ≠ some L.header.iter := by
    rw [hy]
    exact fun h => hiter (Option.some.inj h)
  have hdir := direction_of_keeps hs h hb'
  obtain ⟨hstep, ht⟩ := isTrivialBound_of_bareName b hy
  have hpos : 0 < L.step I σ := by
    refine hdir.resolve_left ?_
    rintro ⟨c, hc⟩
    rw [hc] at hstep
    cases hstep
  have hup := (L.countsUp_iff I σ hs hdir).mpr hpos
  have hie : (L.incr b).expr = .var y := by
    unfold incr hoistBoundToSymbol
    rw [if_pos ht, hstep]
  -- A body that clears the step leaves the loop variable at `lo` for ever.
  let body : LoopBody L.assigned := LoopBody.assign y 0 hmem
  have hle : L.lo I σ ≤ L.hi I σ := by
    simpa using (lt_tripCount_iff_of_pos hpos 0).mp h0
  have hinv : ∀ k, (L.next I b body)^[k] ((L.emitted b).entry I σ) L.header.iter [] = L.lo I σ ∧
      L.lo I σ ≤ (L.bound b).expr.eval I ((L.next I b body)^[k] ((L.emitted b).entry I σ)) := by
    intro k
    induction k with
    | zero => exact ⟨by simp, by simpa [L.entry_bound I b σ hb] using hle⟩
    | succ k ih =>
        rw [Function.iterate_succ_apply']
        refine ⟨?_, ?_⟩
        · rw [next_iter, ih.1, hie]
          simp [Expr.eval, body, LoopBody.assign]
        · by_cases hyb : bareName b L.header.upper = some y
          · obtain ⟨hub, htb⟩ := isTrivialBound_of_bareName b hyb
            have hbe : (L.bound b).expr = .var y := by
              unfold bound hoistBoundToSymbol
              rw [if_pos htb, hub]
            have hlo : L.lo I σ ≤ 0 := by
              by_contra hlo
              exact hcon ⟨hyb.trans hy.symm, by linarith⟩
            rw [hbe, next_eq]
            simp only [Expr.eval, Store.set_of_ne _ _ hiter]
            simpa [body, LoopBody.assign] using hlo
          · have hkb : L.Kept body (L.bound b).expr :=
              L.kept_assign b 0 hmem le_rfl (by omega) hb hyb
            exact ih.2.trans_eq (L.eval_next_of_kept I b hkb _).symm
  refine stop_of_keeps h body ?_
  rw [condition_holds_iff, if_pos hup, (hinv _).1]
  exact (hinv _).2

/-- A bound name the body may assign breaks a nonempty loop. -/
theorem bound_notMem_of_keeps (hs : L.step I σ ≠ 0) (h : L.KeepsIterationSpace I b σ)
    (h0 : 0 < L.trips I σ) (hiter : bareName b L.header.step ≠ some L.header.iter)
    (hfree : ∀ y, bareName b L.header.step = some y → y ∉ L.assigned)
    {x : Name} (hx : bareName b L.header.upper = some x) : x ∉ L.assigned := by
  intro hmem
  have hb := bound_ne_iter_of_keeps h
  have hdir := direction_of_keeps hs h hiter
  have hne : x ≠ L.header.iter := fun h => hb (h ▸ hx)
  obtain ⟨hub, htb⟩ := isTrivialBound_of_bareName b hx
  have hbe : (L.bound b).expr = .var x := by
    unfold bound hoistBoundToSymbol
    rw [if_pos htb, hub]
  -- A body that moves the bound to the value after the last iteration.
  let last : ℤ := L.lo I σ + L.trips I σ * L.step I σ
  let body : LoopBody L.assigned := LoopBody.assign x last hmem
  have hkept : L.Kept body (L.incr b).expr := by
    refine L.kept_assign b last hmem (L.low_nid_le b).1 ?_ hiter (fun h => hfree x h hmem)
    have := (L.low_nid_le b).2
    omega
  obtain ⟨m, hm⟩ := Nat.exists_eq_succ_of_ne_zero h0.ne'
  have hval := L.iterate_iter_of_kept I b σ hkept hiter (L.trips I σ)
  have hbound : (L.bound b).expr.eval I
      ((L.next I b body)^[L.trips I σ] ((L.emitted b).entry I σ)) = last := by
    rw [hbe, hm, Function.iterate_succ_apply', next_eq]
    simp [Expr.eval, Store.set_of_ne _ _ hne, body, LoopBody.assign]
  refine stop_of_keeps h body ?_
  rw [condition_holds_iff, hbound, hval]
  split_ifs <;> exact le_rfl

/-- `DO i = lo, hi, i` agrees only by `DoublingAgrees`. -/
theorem doubling_of_keeps (hs : L.step I σ ≠ 0) (h : L.KeepsIterationSpace I b σ)
    (hincr : bareName b L.header.step = some L.header.iter) :
    L.DoublingAgrees I σ ∧
      (L.trips I σ = 0 ∨ ∀ x, bareName b L.header.upper = some x → x ∉ L.assigned) := by
  have hb := bound_ne_iter_of_keeps h
  have hup : L.countsUp = true := by
    obtain ⟨hstep, -⟩ := isTrivialBound_of_bareName b hincr
    simp [countsUp, hstep]
  have hguard : ∀ τ, (L.emitted b).region.conditionExpr.holds I τ ↔
      τ L.header.iter [] ≤ (L.bound b).expr.eval I τ := fun τ => by
    rw [condition_holds_iff, if_pos hup]
  have hv1 : ∀ body : LoopBody L.assigned,
      L.next I b body ((L.emitted b).entry I σ) L.header.iter [] = 2 * L.lo I σ :=
    fun body => by rw [L.next_iter_of_step_iter I b hincr, entry_iter]
  have hkb : L.Kept (LoopBody.skip L.assigned) (L.bound b).expr := L.kept_skip b le_rfl hb
  have hhi : ∀ k, (L.bound b).expr.eval I
      ((L.next I b (LoopBody.skip L.assigned))^[k] ((L.emitted b).entry I σ)) = L.hi I σ :=
    fun k => (L.eval_iterate_of_kept I b hkb _ k).trans (L.entry_bound I b σ hb)
  have hstop := stop_of_keeps h (LoopBody.skip L.assigned)
  have hrun := fun k hk => @guard_of_keeps I b nid L σ h (LoopBody.skip L.assigned) k hk
  rw [hguard, hhi] at hstop
  -- the increment is the variable itself, so every turn doubles it
  constructor
  · rcases lt_or_gt_of_ne hs with hneg | hpos
    · right
      have h0 : 0 < L.trips I σ := by
        by_contra h0
        obtain h0 : L.trips I σ = 0 := by omega
        have hlt : ¬ 0 < L.trips I σ := by omega
        rw [trips, lt_tripCount_iff_of_neg hneg 0] at hlt
        rw [h0] at hstop
        simp only [Function.iterate_zero, id_eq, entry_iter] at hstop
        simp only [Nat.cast_zero, zero_mul, add_zero] at hlt
        omega
      have hge := (lt_tripCount_iff_of_neg hneg 0).mp h0
      have hle := (hrun 0 h0).1
      rw [hguard, hhi] at hle
      simp only [Function.iterate_zero, id_eq, entry_iter, Nat.cast_zero, zero_mul,
        add_zero] at hle hge
      have h1 : L.trips I σ = 1 := by
        have hgt1 : ¬ 1 < L.trips I σ := by
          rw [trips, lt_tripCount_iff_of_neg hneg 1]
          push_cast
          linarith
        omega
      rw [h1] at hstop
      simp only [Function.iterate_one, hv1] at hstop
      exact ⟨hneg, le_antisymm hle hge, by linarith⟩
    · left
      refine ⟨hpos, ?_⟩
      rcases Nat.lt_or_ge (L.trips I σ) 2 with hlt | hge
      · rcases Nat.eq_zero_or_pos (L.trips I σ) with h0 | h0
        · exact Or.inl h0
        · obtain h1 : L.trips I σ = 1 := by omega
          rw [h1] at hstop
          simp only [Function.iterate_one, hv1] at hstop
          exact Or.inr (Or.inl ⟨h1, not_le.mp hstop⟩)
      · have hval1 := (hrun 1 hge).2
        simp only [Function.iterate_one, hv1, Nat.cast_one] at hval1
        have hstep : L.step I σ = L.lo I σ := by linarith
        rcases Nat.lt_or_ge 2 (L.trips I σ) with hgt | hle
        · have hval2 := (hrun 2 hgt).2
          simp only [Function.iterate_succ_apply', Function.iterate_zero, id_eq,
            L.next_iter_of_step_iter I b hincr, entry_iter] at hval2
          push_cast at hval2
          linarith
        · exact Or.inr (Or.inr ⟨by omega, hstep⟩)
  · rcases Nat.eq_zero_or_pos (L.trips I σ) with h0 | h0
    · exact Or.inl h0
    · right
      intro x hx hmem
      have hne : x ≠ L.header.iter := fun h => hb (h ▸ hx)
      obtain ⟨hub, htb⟩ := isTrivialBound_of_bareName b hx
      have hbe : (L.bound b).expr = .var x := by
        unfold bound hoistBoundToSymbol
        rw [if_pos htb, hub]
      have hbound : ∀ v, (L.bound b).expr.eval I
          (L.next I b (LoopBody.assign x v hmem) ((L.emitted b).entry I σ)) = v := fun v => by
        rw [hbe, next_eq]
        simp [Expr.eval, Store.set_of_ne _ _ hne, LoopBody.assign]
      rcases Nat.lt_or_ge (L.trips I σ) 2 with hlt | hge
      · obtain h1 : L.trips I σ = 1 := by omega
        refine stop_of_keeps h (LoopBody.assign x (2 * L.lo I σ) hmem) ?_
        rw [h1, Function.iterate_one, hguard, hv1, hbound]
      · have hpass := (guard_of_keeps h (LoopBody.assign x (2 * L.lo I σ - 1) hmem) hge).1
        rw [Function.iterate_one, hguard, hv1, hbound] at hpass
        linarith

end Necessity

end DoLoop

/-! ## The iteration space -/

/-- **`emit_loop` keeps Fortran's iteration space exactly when its header does
not read a changed name**: for every DO loop (bounds and step any expressions,
the step nonzero at entry) and every entry store, the emitted region runs every
admissible body for Fortran's iterations, in order, and stops, if and only if
`KeepsIterationsWhen` holds. -/
theorem emitLoop_keepsIterationSpace_iff (I : Interp) (b : SDFGBuilder) {nid : ℕ}
    (L : DoLoop nid) (σ : Store) (hs : L.step I σ ≠ 0) :
    L.KeepsIterationSpace I b σ ↔ L.KeepsIterationsWhen I b σ := by
  constructor
  · intro h
    refine ⟨DoLoop.bound_ne_iter_of_keeps h, ?_⟩
    split_ifs with hiter
    · exact DoLoop.doubling_of_keeps hs h hiter
    · refine ⟨DoLoop.direction_of_keeps hs h hiter, ?_⟩
      rcases Nat.eq_zero_or_pos (L.trips I σ) with h0 | h0
      · exact Or.inl h0
      · right
        by_cases hsame : bareName b L.header.upper = bareName b L.header.step ∧
            bareName b L.header.step ≠ none ∧ 0 < L.lo I σ
        · exact Or.inr hsame
        · left
          have hfree : ∀ y, bareName b L.header.step = some y → y ∉ L.assigned := by
            intro y hy
            refine DoLoop.step_notMem_of_keeps hs h h0 hy (fun h => hiter (h ▸ hy)) ?_
            rintro ⟨heq, hlo⟩
            exact hsame ⟨heq, by simp [hy], hlo⟩
          exact ⟨fun x hx => DoLoop.bound_notMem_of_keeps hs h h0 hiter hfree hx, hfree⟩
  · exact L.keeps_of_when I b σ hs

/-- `DO i = 3, 1, s`, whose body assigns nothing. -/
def countdownLoop : DoLoop 0 where
  header := ⟨.src "i", .lit 3, .lit 1, .var (.src "s")⟩
  assigned := ∅
  iter_notMem := Set.notMem_empty _
  header_old := by decide
  assigned_old := fun _ h => absurd h (Set.notMem_empty _)

/-- `DO i = 1, n`, whose body may assign `n`. -/
def shrinkingLoop : DoLoop 0 where
  header := ⟨.src "i", .lit 1, .var (.src "n"), .lit 1⟩
  assigned := {.src "n"}
  iter_notMem := by simp
  header_old := by decide
  assigned_old := by
    rintro x rfl h
    exact h.elim

/-- A store with `s = -1` and every other scalar `2`. -/
def entryStore : Store := fun x _ => if x = .src "s" then -1 else 2

/-- The condition at work: `DO i = 1, n` runs Fortran's two iterations for every
body only if no body may assign `n`. -/
theorem emitLoop_keepsIterationSpace_iff_shrinking :
    shrinkingLoop.step (fun _ _ => 0) entryStore ≠ 0 ∧
      (shrinkingLoop.KeepsIterationSpace (fun _ _ => 0) {} entryStore ↔
        shrinkingLoop.KeepsIterationsWhen (fun _ _ => 0) {} entryStore) :=
  ⟨by decide, emitLoop_keepsIterationSpace_iff (fun _ _ => 0) {} shrinkingLoop entryStore
    (by decide)⟩

/-- A negative symbolic step is run forward (`DO i = 3, 1, s` with `s = -1` runs
no iteration instead of three), and a bare bound is read again after the body
has assigned it (`DO i = 1, n` with `n = 2` does not stop after two). -/
theorem not_keepsIterationSpace_countdown :
    ¬ countdownLoop.KeepsIterationSpace (fun _ _ => 0) {} entryStore ∧
      ¬ shrinkingLoop.KeepsIterationSpace (fun _ _ => 0) {} entryStore := by
  constructor
  · intro h
    rcases DoLoop.direction_of_keeps (by decide) h (by decide) with ⟨c, hc⟩ | hpos
    · cases hc
    · exact absurd hpos (by decide)
  · intro h
    exact DoLoop.bound_notMem_of_keeps (by decide) h (by decide) (by decide)
      (fun y hy => by cases hy) rfl rfl
