/-
# Runs that leave module variables alone

Module variables that no statement assigns as a whole and no call is passed by
name and position (`Scanned`).  In a run whose other definitions and arguments
start from other variables (`Visible`), none of them is ever defined: the
invariant is that no frame and no pointer gets hold of one (`Untouched`).
-/
import DaceFortran.Procedures.Run

open List

namespace Procedures

variable {L V : Type} {code : Code L} {lit : L → V} {F : Spec → Prop}

/-! ## Where items come from -/

/-- The item belongs to the program's text. -/
def Occurs (code : Code L) : Item L → Prop
  | .run s => s.assignments ⊆ code.assignments ∧ s.calls ⊆ code.calls
  | .invoke c _ => c ∈ code.calls
  | .define true target => target ∈ code.assignments
  | _ => True

/-- Function references that occur in the text. -/
theorem occurs_evaluations {calls : List (Call L)} (h : calls ⊆ code.calls) :
    ∀ i ∈ evaluations calls, Occurs code i := by
  intro i hi
  obtain ⟨c, hc, rfl⟩ := mem_map.mp hi
  exact h hc

/-- **What a statement does first** occurs in the text when the statement does. -/
theorem Unfolds.occurs {s : Stmt L} {items : List (Item L)} (h : Unfolds s items)
    (hs : Occurs code (.run s)) : ∀ i ∈ items, Occurs code i := by
  obtain ⟨ha, hc⟩ := hs
  have hsplit : ∀ {calls : List (Call L)} {later : List (Item L)}, calls ⊆ code.calls →
      (∀ i ∈ later, Occurs code i) → ∀ i ∈ evaluations calls ++ later, Occurs code i := by
    intro calls later hcalls hlater i hi
    rcases mem_append.mp hi with hi | hi
    · exact occurs_evaluations hcalls i hi
    · exact hlater i hi
  cases h with
  | skip =>
    intro i hi
    cases hi
  | seq s t =>
    have ha' := append_subset.mp ha
    have hc' := append_subset.mp hc
    simpa [Occurs] using ⟨⟨ha'.1, hc'.1⟩, ha'.2, hc'.2⟩
  | assign lhs rhs => exact hsplit hc (by simpa [Occurs, Stmt.assignments] using ha)
  | pointerAssign lhs rhs => exact hsplit hc (by simp [Occurs])
  | call fn args =>
    rw [Stmt.calls, ← append_assoc] at hc
    have hc' := append_subset.mp hc
    exact hsplit hc'.1 (by simpa [Occurs] using hc'.2)
  | define form target => exact hsplit hc (by simp [Occurs])
  | evaluate e => exact occurs_evaluations hc
  | thenBranch cond s t =>
    have ha' := append_subset.mp ha
    have hc' := append_subset.mp hc
    have hc'' := append_subset.mp hc'.2
    exact hsplit hc'.1 (by simpa [Occurs] using ⟨ha'.1, hc''.1⟩)
  | elseBranch cond s t =>
    have ha' := append_subset.mp ha
    have hc' := append_subset.mp hc
    have hc'' := append_subset.mp hc'.2
    exact hsplit hc'.1 (by simpa [Occurs] using ⟨ha'.2, hc''.2⟩)
  | doExit var bounds body =>
    rw [Stmt.calls, ← append_assoc] at hc
    have hc' := append_subset.mp hc
    exact hsplit hc'.1 (by simp [Occurs])
  | doRound var bounds body =>
    have hrun : Occurs code (.run (.doLoop var bounds body)) := ⟨ha, hc⟩
    rw [Stmt.calls, ← append_assoc] at hc
    have hc' := append_subset.mp hc
    refine hsplit hc'.1 ?_
    intro i hi
    simp only [mem_cons, not_mem_nil, or_false] at hi
    rcases hi with rfl | rfl | rfl
    · trivial
    · exact ⟨ha, hc'.2⟩
    · exact hrun
  | whileExit cond body => exact occurs_evaluations (append_subset.mp hc).1
  | whileRound cond body =>
    have hc' := append_subset.mp hc
    refine hsplit hc'.1 ?_
    intro i hi
    simp only [mem_cons, not_mem_nil, or_false] at hi
    rcases hi with rfl | rfl
    · exact ⟨ha, hc'.2⟩
    · exact ⟨ha, hc⟩

/-- The main program and the procedures are the text. -/
theorem occurs_body {s : Stmt L} (hs : s ∈ code.bodies) : Occurs code (.run s) :=
  ⟨fun _ h => mem_flatMap.mpr ⟨s, hs, h⟩, fun _ h => mem_flatMap.mpr ⟨s, hs, h⟩⟩

/-! ## The condition on the text and on the run -/

/-- No statement assigns one of the variables as a whole, and no walked call is passed one by
name and position. -/
structure Scanned (code : Code L) (F : Spec → Prop) : Prop where
  assigned : ∀ n v, Expr.name n ∈ code.assignments → (Expr.name n : Expr L).root = some v → ¬F v
  passed : ∀ c ∈ code.calls, c.walked → ∀ n v, (none, Expr.name n) ∈ c.args.toList →
    (Expr.name n : Expr L).root = some v → ¬F v

/-- The item defines or passes none of the variables, unless by an assignment to the whole
variable, or as an argument by name and position of a walked call. -/
def Visible (F : Spec → Prop) : Item L → Prop
  | .run _ => True
  | .define plain target =>
    ∀ v, target.root = some v → F v → plain = true ∧ ∃ n, target = .name n
  | .associate lhs rhs => ∀ v, lhs.root = some v ∨ rhs.root = some v → ¬F v
  | .invoke c _ =>
    (∀ base binding v, c.fn = .bound base binding → base.root = some v → ¬F v) ∧
      ∀ a ∈ c.args.toList, ∀ v, a.2.root = some v → F v →
        c.walked = true ∧ a.1 = none ∧ ∃ n, a.2 = .name n

variable {v : Spec} {e : Expr L} {q : Procedure L}

/-- Together they exclude that a call is passed one of the variables. -/
theorem Scanned.not_operand (hsc : Scanned code F) {c : Call L} {opt : Bool}
    (hc : c ∈ code.calls) (hvis : Visible F (.invoke c opt)) {a : Option String × Expr L}
    (ha : a ∈ c.operands) (hv : a.2.root = some v) : ¬F v := by
  have hargs : a ∈ c.args.toList → ¬F v := by
    intro ha hF
    obtain ⟨hw, hk, n, hn⟩ := hvis.2 a ha v hv hF
    obtain ⟨k, e⟩ := a
    obtain rfl : k = none := hk
    obtain rfl : e = .name n := hn
    exact hsc.passed c hc hw n v ha hv hF
  rcases hfn : c.fn with op | n | ⟨base, binding⟩ <;> simp only [Call.operands, hfn] at ha
  · exact hargs ha
  · exact hargs ha
  · rcases mem_cons.mp ha with rfl | ha
    · exact hvis.1 base binding v hfn hv
    · exact hargs ha

/-- And that an item defines one. -/
theorem Scanned.not_define (hsc : Scanned code F) {plain : Bool} {target : Expr L}
    (ho : Occurs code (.define plain target)) (hvis : Visible F (.define plain target))
    (hv : target.root = some v) : ¬F v := by
  intro hF
  obtain ⟨rfl, n, rfl⟩ := hvis v hv hF
  exact hsc.assigned n v ho hv hF

/-! ## The invariant -/

/-- The variables keep their values, and nothing gets hold of them. -/
structure Untouched (code : Code L) (F : Spec → Prop) (store : Loc → V) (st : State L V) :
    Prop where
  exposed : ∀ v, F v → ¬st.exposed (.global v)
  binding : ∀ fr ∈ st.stack, ∀ s v, F v → fr.binding s ≠ some (.object (.global v))
  occurs : ∀ fr ∈ st.stack, ∀ i ∈ fr.todo, Occurs code i
  store_eq : ∀ v, F v → st.store (.global v) = store (.global v)

variable {store : Loc → V} {st st' : State L V}

variable {fr : Frame L V} {args : List (Option String × Expr L)}
  {binding : Spec → Option (Binding V)}

/-- A designator reaches one of the variables only if it starts from it. -/
theorem Untouched.root_of_reaches (h : Untouched code F store st)
    (hfr : ∀ s v, F v → fr.binding s ≠ some (.object (.global v)))
    (hF : F v) (hr : Reaches code st fr e (.global v)) : e.root = some v := by
  obtain ⟨s, l', hroot, hloc, hl⟩ := hr
  rcases hl with rfl | hl
  · unfold Frame.locate at hloc
    split_ifs at hloc
    · injection hloc with hloc
      injection hloc with hloc
      rw [hroot, hloc]
    · rcases hb : fr.binding s with _ | x
      · rw [hb] at hloc
        injection hloc with hloc
        cases hloc
      · rw [hb] at hloc
        obtain rfl : x = .object (.global v) := hloc
        exact absurd hb (hfr s v hF)
  · exact absurd hl (h.exposed v hF)

/-- An actual argument is one of the variables only if it starts from it. -/
theorem Untouched.root_of_passes (h : Untouched code F store st)
    (hfr : ∀ s v, F v → fr.binding s ≠ some (.object (.global v)))
    (hF : F v) (hp : Passes code lit st fr e (.object (.global v))) : e.root = some v := by
  cases hp with
  | object hr => exact h.root_of_reaches hfr hF hr
  | forwarded _ _ hx => exact absurd rfl (hx _)

/-- The actual argument of a dummy is one of the arguments. -/
theorem actualOf_mem {i : ℕ} {name : String}
    (h : actualOf args i name = some e) : ∃ a ∈ args, a.2 = e := by
  have hkey : ∀ {o : Option (Option String × Expr L)},
      ((args.find? fun a => a.1 = some name).map Prod.snd) = some e → ∃ a ∈ args, a.2 = e := by
    intro _ h
    obtain ⟨a, ha, rfl⟩ := Option.map_eq_some_iff.mp h
    exact ⟨a, mem_of_find?_eq_some ha, rfl⟩
  unfold actualOf at h
  split at h
  case h_1 e' hi =>
    obtain rfl := Option.some.inj h
    exact ⟨_, mem_of_getElem? hi, rfl⟩
  case h_2 => exact hkey (o := args[i]?) h

/-- What the frames of a state do not hold, an inherited binding does not. -/
theorem Untouched.inherited (h : Untouched code F store st) {s : Spec} {x : Option (Binding V)}
    (hF : F v) (hx : Inherited st s x) : x ≠ some (.object (.global v)) := by
  rcases hx with rfl | ⟨fr, hfr, rfl⟩
  · exact fun h => nomatch h
  · exact h.binding fr hfr s v hF

/-- A call hands over none of the variables. -/
theorem Untouched.associated (h : Untouched code F store st)
    (hfr : ∀ s v, F v → fr.binding s ≠ some (.object (.global v)))
    (hargs : ∀ a ∈ args, ∀ v, a.2.root = some v → ¬F v)
    (ha : Associated code lit st fr q args binding) :
    ∀ s v, F v → binding s ≠ some (.object (.global v)) := by
  intro s v hF hb
  by_cases hs : ∀ d ∈ q.dummies, d.spec ≠ some s
  · exact h.inherited hF (ha.host s hs) hb
  · push Not at hs
    obtain ⟨d, hd, hds⟩ := hs
    obtain ⟨i, hi⟩ := List.getElem?_of_mem hd
    have hdummy := ha.dummy i d s hi hds
    rcases hact : actualOf args i d.name with _ | e <;> rw [hact] at hdummy
    · rw [hdummy.1] at hb
      cases hb
    · obtain ⟨x, hpass, hx, -⟩ := hdummy
      rw [hb] at hx
      obtain rfl := Option.some.inj hx
      obtain ⟨a, hmem, rfl⟩ := actualOf_mem hact
      exact hargs a hmem v (h.root_of_passes hfr hF hpass) hF

/-- The same for a call whose procedure is not known. -/
theorem Untouched.associatedSomehow (h : Untouched code F store st)
    (hfr : ∀ s v, F v → fr.binding s ≠ some (.object (.global v)))
    (hargs : ∀ a ∈ args, ∀ v, a.2.root = some v → ¬F v)
    (ha : AssociatedSomehow code lit st fr args binding) :
    ∀ s v, F v → binding s ≠ some (.object (.global v)) := by
  intro s v hF hb
  rcases ha s with hs | ⟨hs, -⟩ | ⟨w, hs⟩ | ⟨a, hmem, x, hpass, hs, -⟩
  · exact h.inherited hF hs hb
  · rw [hs] at hb
    cases hb
  · rw [hs] at hb
    cases hb
  · rw [hs] at hb
    obtain rfl := Option.some.inj hb
    exact hargs a hmem v (h.root_of_passes hfr hF hpass) hF

/-- A frame that has done one item. -/
theorem Untouched.popItem (h : Untouched code F store st) {i : Item L}
    {k : List (Item L)} {rest : List (Frame L V)}
    (hst : st.stack = { fr with todo := i :: k } :: rest) {exposed : Loc → Prop}
    {store' : Loc → V} (hexposed : ∀ v, F v → ¬exposed (.global v))
    (hstore : ∀ v, F v → store' (.global v) = st.store (.global v)) :
    Untouched code F store
      { st with stack := { fr with todo := k } :: rest, store := store', exposed } := by
  have htop : { fr with todo := i :: k } ∈ st.stack := by
    rw [hst]
    exact mem_cons_self ..
  have hrest : ∀ fr' ∈ rest, fr' ∈ st.stack := by
    intro fr' hfr'
    rw [hst]
    exact mem_cons_of_mem _ hfr'
  refine ⟨hexposed, ?_, ?_, ?_⟩
  · intro fr' hfr'
    rcases mem_cons.mp hfr' with rfl | hfr'
    · exact h.binding { fr with todo := i :: k } htop
    · exact h.binding fr' (hrest fr' hfr')
  · intro fr' hfr'
    rcases mem_cons.mp hfr' with rfl | hfr'
    · intro j hj
      exact h.occurs _ htop j (mem_cons_of_mem _ hj)
    · exact h.occurs fr' (hrest fr' hfr')
  · intro v hF
    exact (hstore v hF).trans (h.store_eq v hF)

/-- A new activation that holds none of the variables. -/
theorem Untouched.push (h : Untouched code F store st)
    (hq : q ∈ code.procedures)
    (hb : ∀ s v, F v → binding s ≠ some (.object (.global v))) :
    Untouched code F store (st.push q binding st.stack) := by
  refine ⟨h.exposed, ?_, ?_, h.store_eq⟩
  · intro fr hfr
    rcases mem_cons.mp hfr with rfl | hfr
    · exact hb
    · exact h.binding fr hfr
  · intro fr hfr
    rcases mem_cons.mp hfr with rfl | hfr
    · intro i hi
      obtain rfl := mem_singleton.mp hi
      refine occurs_body (mem_cons_of_mem _ ?_)
      exact mem_map.mpr ⟨q, hq, rfl⟩
    · exact h.occurs fr hfr

/-- **One step** leaves the variables alone. -/
theorem Untouched.step (hsc : Scanned code F) (h : Untouched code F store st)
    (hs : StepMeeting code lit (Visible F) st st') : Untouched code F store st' := by
  obtain ⟨hstep, hvis⟩ := hs
  have hitem : ∀ {fr : Frame L V} {i : Item L} {k : List (Item L)} {rest : List (Frame L V)},
      st.stack = { fr with todo := i :: k } :: rest → Occurs code i ∧ Visible F i ∧
        ∀ s v, F v → fr.binding s ≠ some (.object (.global v)) := by
    intro fr i k rest hst
    have htop : { fr with todo := i :: k } ∈ st.stack := by
      rw [hst]
      exact mem_cons_self ..
    refine ⟨h.occurs _ htop i (mem_cons_self ..), hvis i ?_,
      h.binding { fr with todo := i :: k } htop⟩
    rw [State.current, hst]
    rfl
  have hkeep : ∀ v, F v → st.store (.global v) = st.store (.global v) := fun _ _ => rfl
  -- no operand and no target of the step reaches a variable of `F`
  cases hstep with
  | @run fr rest s k items hst hu =>
    obtain ⟨ho, -, hfr⟩ := hitem hst
    have hp := h.popItem hst h.exposed hkeep
    refine ⟨hp.exposed, ?_, ?_, hp.store_eq⟩
    · intro fr' hfr'
      rcases mem_cons.mp hfr' with rfl | hfr'
      · exact hfr
      · exact hp.binding fr' (mem_cons_of_mem _ hfr')
    · intro fr' hfr'
      rcases mem_cons.mp hfr' with rfl | hfr'
      · intro i hi
        rcases mem_append.mp hi with hi | hi
        · exact hu.occurs ho i hi
        · exact hp.occurs _ (mem_cons_self ..) i hi
      · exact hp.occurs fr' (mem_cons_of_mem _ hfr')
  | notEvaluated hst => exact h.popItem hst h.exposed hkeep
  | @call fr rest c opt k q binding hst hq hfn ha =>
    obtain ⟨ho, hv, hfr⟩ := hitem hst
    have hfr' : ∀ s v, F v → ({ fr with todo := .invoke c opt :: k } : Frame L V).binding s ≠
        some (.object (.global v)) := hfr
    have hb := h.associated hfr'
      (fun a ha' v => hsc.not_operand ho hv (c.args_subset_operands ha')) ha
    exact (h.popItem hst h.exposed hkeep).push hq hb
  | @dispatch fr rest c opt k q binding hst hq hfn ha =>
    obtain ⟨ho, hv, hfr⟩ := hitem hst
    have hfr' : ∀ s v, F v → ({ fr with todo := .invoke c opt :: k } : Frame L V).binding s ≠
        some (.object (.global v)) := hfr
    have hb := h.associatedSomehow hfr'
      (fun a ha' v => hsc.not_operand ho hv ha') ha
    exact (h.popItem hst h.exposed hkeep).push hq hb
  | @external fr rest c opt k store' exposed hst hfn hstore hexposed =>
    obtain ⟨ho, hv, hfr⟩ := hitem hst
    have hnot : ∀ v, F v → ¬∃ a ∈ c.operands,
        Reaches code st { fr with todo := .invoke c opt :: k } a.2 (.global v) := by
      rintro v hF ⟨a, ha, hr⟩
      exact hsc.not_operand ho hv ha (h.root_of_reaches hfr hF hr) hF
    refine h.popItem hst ?_ ?_
    · intro v hF he
      rcases hexposed _ he with he | he
      · exact h.exposed v hF he
      · exact hnot v hF he
    · intro v hF
      by_contra hne
      exact hnot v hF (hstore _ hne)
  | @define fr rest plain target k l store' hst hl hstore =>
    obtain ⟨ho, hv, hfr⟩ := hitem hst
    refine h.popItem hst h.exposed ?_
    intro v hF
    apply hstore
    rintro rfl
    exact hsc.not_define ho hv (h.root_of_reaches hfr hF hl) hF
  | @associate fr rest lhs rhs k l store' exposed hst hl hstore hexposed =>
    obtain ⟨-, hv, hfr⟩ := hitem hst
    refine h.popItem hst ?_ ?_
    · intro v hF he
      rcases hexposed _ he with he | he
      · exact h.exposed v hF he
      · exact hv v (Or.inr (h.root_of_reaches hfr hF he)) hF
    · intro v hF
      apply hstore
      rintro rfl
      exact hv v (Or.inl (h.root_of_reaches hfr hF hl)) hF
  | @finish fr rest hst =>
    have hrest : ∀ fr' ∈ rest, fr' ∈ st.stack := by
      intro fr' hfr'
      rw [hst]
      exact mem_cons_of_mem _ hfr'
    exact ⟨h.exposed, fun fr' hfr' => h.binding fr' (hrest fr' hfr'),
      fun fr' hfr' => h.occurs fr' (hrest fr' hfr'), h.store_eq⟩

/-- Before the first statement. -/
theorem Initial.untouched (h : Initial code st) : Untouched code F st.store st := by
  refine ⟨fun v _ => h.exposed_eq _, ?_, ?_, fun _ _ => rfl⟩
  · intro fr hfr
    rw [h.stack_eq] at hfr
    obtain rfl := mem_singleton.mp hfr
    intro s v _ hb
    cases hb
  · intro fr hfr
    rw [h.stack_eq] at hfr
    obtain rfl := mem_singleton.mp hfr
    intro i hi
    obtain rfl := mem_singleton.mp hi
    exact occurs_body (mem_cons_self ..)

/-- **A whole run** leaves the variables alone. -/
theorem unchanged_of_run (hsc : Scanned code F) (h₀ : Initial code st)
    (hr : RunMeeting code lit (Visible F) st st') : ∀ v, F v →
      st'.store (.global v) = st.store (.global v) := by
  have h : Untouched code F st.store st' := by
    induction hr with
    | refl => exact h₀.untouched
    | tail _ hs ih => exact ih.step hsc hs
  exact h.store_eq

end Procedures
