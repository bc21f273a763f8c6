/-
# `make_practically_constant_arguments_constants` is sound

What is replaced is what every call that the pass looks at passes
(`passes_of_fixedLiteral`, `present_of_fixedPresence`), and an activation by such
a call gives it to the dummy (`alike_of_counted`).  So in a run whose other
activations are alike, whatever is replaced has the value that it is replaced by
(**`makeArgumentConstants_sound`**).  An activation by a call the pass skips need
not be alike (**`not_sound_genericCall`**).
-/
import DaceFortran.ArgumentConstants.CallFacts
import DaceFortran.Procedures.UntouchedGlobals

open Procedures ConstEval Fallible List

namespace ArgumentConstants

variable {P : Processor} {ρ : Env P} {tolerate : Bool} {code : Code ConstEval.Expr}
variable {keepers : List Spec} {t : Table P}

/-- A state of a run: values are Fortran values, and `none` is an undefined one. -/
abbrev RunState (P : Processor) := State ConstEval.Expr (Option (Value P))

/-- A frame of a run. -/
abbrev RunFrame (P : Processor) := Frame ConstEval.Expr (Option (Value P))

/-! ## The conditions -/

/-- A call that is looked at passes the literal to the dummy. -/
def PassesLiteral (code : Code ConstEval.Expr) (keepers : List Spec) (s : Spec)
    (x : ConstEval.Expr) : Prop :=
  ∃ c q i d, LookedDummy code keepers c q i d s ∧
    actualOf c.args.toList i d.name = some (.literal x)

/-- **The literals agree**: of two literals passed to one dummy that are one element of a `set`,
the literal written for the one has the value of the other. -/
def LiteralsAgree (ρ : Env P) (tolerate : Bool) (code : Code ConstEval.Expr)
    (keepers : List Spec) : Prop :=
  ∀ s x y w v lit, PassesLiteral code keepers s x → PassesLiteral code keepers s y →
    constEval P tolerate x = .ok (some w) → constEval P tolerate y = .ok (some v) →
    v = w ∨ pyEq w v = true → numpyTypeToLiteral v = .ok lit → fortran ρ lit = fortran ρ x

/-- A call that is looked at and passes no `POINTER`, `ALLOCATABLE` or `NULL()` to an optional
dummy. -/
structure Counted (code : Code ConstEval.Expr) (keepers : List Spec) (c : Call ConstEval.Expr)
    (q : Procedure ConstEval.Expr) : Prop where
  looked : Looked code keepers c q
  present : ∀ i d e, q.dummies[i]? = some d → d.optional = true →
    actualOf c.args.toList i d.name = some e → code.nullable e = false

/-- An activation gives the dummies the values and presences their uses are replaced by. -/
def Agrees (ρ : Env P) (t : Table P) (q : Procedure ConstEval.Expr)
    (binding : Spec → Option (Binding (Option (Value P)))) : Prop :=
  ∀ d ∈ q.dummies, ∀ s, d.spec = some s →
    (∀ lit, t.fixedLiteral s = some lit → binding s = some (.value (fortran ρ lit))) ∧
    ∀ b, t.fixedPresence s = some b → ∃ x, binding s = some x ∧ (x ≠ .absent ↔ b = true)

/-- Every call that is looked at passes the dummy a literal of one value. -/
structure AlwaysPasses (ρ : Env P) (code : Code ConstEval.Expr) (keepers : List Spec)
    (q : Procedure ConstEval.Expr) (i : ℕ) (d : Dummy) (v : Option (Value P)) : Prop where
  some_call : ∃ c, Looked code keepers c q
  literal : ∀ c, Looked code keepers c q →
    ∃ x, actualOf c.args.toList i d.name = some (.literal x) ∧ fortran ρ x = v
  readOnly : d.out = false ∧ d.shape = false
  resolved : AllResolved q

/-- Every call that is looked at passes something to an optional dummy, other than an optional
dummy of the caller, or every such call passes nothing. -/
structure AlwaysPresent (code : Code ConstEval.Expr) (keepers : List Spec)
    (q : Procedure ConstEval.Expr) (i : ℕ) (d : Dummy) (b : Bool) : Prop where
  some_call : ∃ c, Looked code keepers c q
  actual : ∀ c, Looked code keepers c q →
    (actualOf c.args.toList i d.name).isSome = b ∧
      forwardedOptional code (actualOf c.args.toList i d.name) = false
  optional : d.optional = true
  resolved : AllResolved q

/-- An activation that gives the dummies what every call that is looked at gives them. -/
def Alike (ρ : Env P) (code : Code ConstEval.Expr) (keepers : List Spec)
    (q : Procedure ConstEval.Expr) (binding : Spec → Option (Binding (Option (Value P)))) : Prop :=
  ∀ i d s, q.dummies[i]? = some d → d.spec = some s →
    (∀ v, AlwaysPasses ρ code keepers q i d v → binding s = some (.value v)) ∧
    ∀ b, AlwaysPresent code keepers q i d b → ∃ x, binding s = some x ∧ (x ≠ .absent ↔ b = true)

/-- The step starts an activation of a procedure. -/
def Activates (code : Code ConstEval.Expr) (st st' : RunState P) (c : Call ConstEval.Expr)
    (q : Procedure ConstEval.Expr) (binding : Spec → Option (Binding (Option (Value P)))) : Prop :=
  q ∈ code.procedures ∧ ∃ (fr : RunFrame P) (rest : List (RunFrame P)) (opt : Bool)
    (k : List (Item ConstEval.Expr)),
    st.stack = { fr with todo := .invoke c opt :: k } :: rest ∧
      st' = st.push q binding ({ fr with todo := k } :: rest)

/-- A step that starts no activation but by a counted call, or one that is alike. -/
def CountedStep (ρ : Env P) (code : Code ConstEval.Expr) (keepers : List Spec)
    (st st' : RunState P) : Prop :=
  Step code (fortran ρ) st st' ∧ ∀ c q binding, Activates code st st' c q binding →
    ¬Counted code keepers c q → Alike ρ code keepers q binding

/-! ## What the tables decide -/

variable {s : Spec} {q : Procedure ConstEval.Expr} {fr : RunFrame P} {st : RunState P}
  {binding : Spec → Option (Binding (Option (Value P)))}

/-- A value that is fixed is the only one, and never in doubt. -/
theorem fixedValue_eq {v : Scalar P} (h : t.fixedValue s = some v) :
    t.undecidable s = false ∧ false ∉ t.presence s ∧ t.possible s = [some v] := by
  unfold Table.fixedValue at h
  split_ifs at h with hn
  rw [not_or] at hn
  refine ⟨by simpa using hn.1, hn.2, ?_⟩
  split at h
  case h_1 o hp =>
    rw [hp]
    exact congrArg (fun o => [o]) h
  case h_2 => cases h

variable {lit : ConstEval.Expr}

theorem fixedLiteral_eq (h : t.fixedLiteral s = some lit) :
    ∃ v, t.fixedValue s = some v ∧ numpyTypeToLiteral v = .ok lit := by
  unfold Table.fixedLiteral at h
  rcases hv : t.fixedValue s with _ | v <;> rw [hv] at h
  · cases h
  · refine ⟨v, rfl, ?_⟩
    rcases hl : numpyTypeToLiteral v with r | l <;> simp only [hl] at h
    · cases h
    · exact congrArg Except.ok (Option.some.inj h)

theorem fixedPresence_eq {b : Bool} (h : t.fixedPresence s = some b) :
    t.presence s = [b] := by
  unfold Table.fixedPresence at h
  split at h
  case h_1 b' hp =>
    rw [hp, Option.some.inj h]
  case h_2 => cases h

/-! ## One activation -/

/-- Where an absent dummy is an optional one. -/
def AbsentOptional (code : Code ConstEval.Expr)
    (binding : Spec → Option (Binding (Option (Value P)))) : Prop :=
  ∀ s, binding s = some .absent → code.isOptional s = true

variable {d : Dummy}

theorem isOptional_of_dummy (hq : q ∈ code.procedures)
    (hd : d ∈ q.dummies) (hs : d.spec = some s) (ho : d.optional = true) :
    code.isOptional s = true := by
  refine any_eq_true.mpr ⟨q, hq, any_eq_true.mpr ⟨d, hd, ?_⟩⟩
  exact decide_eq_true ⟨hs, ho⟩

variable {b : Binding (Option (Value P))} {x : ConstEval.Expr}

/-- A literal is passed as its value. -/
theorem passes_literal
    (h : Passes code (fortran ρ) st fr (.literal x) b)
    (hb : b = .absent → code.nullable (.literal x) = false) : b = .value (fortran ρ x) := by
  cases h with
  | literal => rfl
  | object hr =>
    obtain ⟨s, l, hroot, -⟩ := hr
    cases hroot
  | computed hlit _ => exact absurd rfl (hlit x)
  | null hn =>
    rw [hb rfl] at hn
    cases hn

/-- What a bare reference to an optional dummy does not pass is there. -/
theorem passes_present {e : Procedures.Expr ConstEval.Expr}
    (hfr : AbsentOptional code fr.binding)
    (h : Passes code (fortran ρ) st fr e b) (hn : code.nullable e = false)
    (hf : forwardedOptional code (some e) = false) : b ≠ .absent := by
  rintro rfl
  cases h with
  | @forwarded n s x hs hloc hx =>
    obtain ⟨str, target⟩ := n
    rcases target with _ | (_ | _ | _ | _ | _ | _ | _) <;> try cases hs
    unfold Frame.locate at hloc
    split_ifs at hloc
    rcases hb : fr.binding s with _ | x <;> rw [hb] at hloc
    · cases hloc
    · obtain rfl : x = .absent := hloc
      have hcode : forwardedOptional code (some (.name ⟨str, some (.entity s)⟩)) =
          code.isOptional s := rfl
      rw [hcode, hfr s hb] at hf
      cases hf
  | null hnull =>
    rw [hn] at hnull
    cases hnull

/-- **An activation by a counted call** is alike. -/
theorem alike_of_counted {c : Call ConstEval.Expr}
    (hc : Counted code keepers c q)
    (hfr : AbsentOptional code fr.binding)
    (ha : Associated code (fortran ρ) st fr q c.args.toList binding) :
    Alike ρ code keepers q binding := by
  intro i d s hi hs
  have hdummy := ha.dummy i d s hi hs
  constructor
  · intro v hv
    obtain ⟨x, hact, hx⟩ := hv.literal c hc.looked
    rw [hact] at hdummy
    obtain ⟨b, hpass, hb, hopt⟩ := hdummy
    rw [hb, passes_literal hpass, hx]
    exact fun h => hc.present i d _ hi (hopt h) hact
  · intro b hb
    obtain ⟨hsome, hforward⟩ := hb.actual c hc.looked
    rw [← hsome]
    rcases hact : actualOf c.args.toList i d.name with _ | e <;> rw [hact] at hdummy hforward
    · refine ⟨_, hdummy.1, ?_⟩
      simp
    · obtain ⟨x, hpass, hx, -⟩ := hdummy
      refine ⟨x, hx, iff_of_true ?_ rfl⟩
      exact passes_present hfr hpass (hc.present i d e hi hb.optional hact) hforward

/-! ## What every call passes -/

/-- The literal a dummy is replaced by has the value that every call passes. -/
theorem passes_of_fixedLiteral (hv : ValidCode code)
    (hscan : scanCalls P tolerate code keepers = .ok t)
    (hlit : LiteralsAgree ρ tolerate code keepers)
    (hq : q ∈ code.procedures) {i : ℕ} (hi : q.dummies[i]? = some d)
    (hs : d.spec = some s) (hfix : t.fixedLiteral s = some lit) :
    AlwaysPasses ρ code keepers q i d (fortran ρ lit) := by
  obtain ⟨v, hval, hwritten⟩ := fixedLiteral_eq hfix
  obtain ⟨hund, hpres, hposs⟩ := fixedValue_eq hval
  -- the value comes from a call of the same procedure, for the same dummy
  obtain ⟨c', q', i', d', hl', hout, hshape, hy⟩ :=
    (scanCalls_origin hv hscan).possible s (some v) (by rw [hposs]; exact mem_singleton_self _)
  obtain ⟨y, hy, hyv⟩ := hy v rfl
  obtain ⟨rfl, rfl⟩ := hv.dummies q' hl'.looked.procedure q hq d'
    (mem_of_getElem? hl'.dummy) d (mem_of_getElem? hi) s hl'.spec hs
  refine ⟨⟨c', hl'.looked⟩, ?_, ⟨hout, hshape⟩, hl'.resolved⟩
  intro c hc
  rcases scanCalls_recorded hv hscan hc i d' s hi hs with ⟨hu, -⟩ | hr
  · rw [hund] at hu
    cases hu
  · rcases hact : actualOf c.args.toList i d'.name with _ | e <;> rw [hact] at hr
    · exact absurd (hr.absent rfl) hpres
    · rcases hr.value hout hshape e rfl with hu | ⟨x, w, rfl, hw, o, ho, heq⟩
      · rw [hund] at hu
        cases hu
      · rw [hposs, mem_singleton] at ho
        subst ho
        have hx : PassesLiteral code keepers s x := ⟨c, q', i, d', ⟨hc, hi, hs, hl'.resolved⟩, hact⟩
        refine ⟨x, rfl, ?_⟩
        exact (hlit s x y w v lit hx ⟨c', q', i', d', hl', hy⟩ hw hyv
          (heq.imp (fun h => Option.some.inj h) id) hwritten).symm

/-- The presence that is settled is that of every call. -/
theorem present_of_fixedPresence (hv : ValidCode code)
    (hscan : scanCalls P tolerate code keepers = .ok t)
    (hq : q ∈ code.procedures) {i : ℕ} (hi : q.dummies[i]? = some d)
    (hs : d.spec = some s) {b : Bool} (hfix : t.fixedPresence s = some b) :
    AlwaysPresent code keepers q i d b := by
  have hpres := fixedPresence_eq hfix
  obtain ⟨c', q', i', d', hl', hopt⟩ :=
    (scanCalls_origin hv hscan).presence s b (by rw [hpres]; exact mem_singleton_self _)
  obtain ⟨rfl, rfl⟩ := hv.dummies q' hl'.looked.procedure q hq d'
    (mem_of_getElem? hl'.dummy) d (mem_of_getElem? hi) s hl'.spec hs
  refine ⟨⟨c', hl'.looked⟩, ?_, hopt, hl'.resolved⟩
  intro c hc
  rcases scanCalls_recorded hv hscan hc i d' s hi hs with ⟨-, hres⟩ | hr
  · exact absurd hl'.resolved hres
  · rcases hact : actualOf c.args.toList i d'.name with _ | e <;> rw [hact] at hr
    · have hfalse := hr.absent rfl
      rw [hpres, mem_singleton] at hfalse
      exact ⟨hfalse, rfl⟩
    · have htrue := hr.present hopt rfl
      rw [hpres, mem_singleton] at htrue
      refine ⟨htrue, ?_⟩
      by_contra hf
      have hfalse := hr.forwarded hopt (by simpa using hf)
      rw [hpres, mem_singleton, ← htrue] at hfalse
      cases hfalse

/-- **An activation that is alike** agrees with what is replaced. -/
theorem Alike.agrees (hv : ValidCode code) (hscan : scanCalls P tolerate code keepers = .ok t)
    (hlit : LiteralsAgree ρ tolerate code keepers)
    (hq : q ∈ code.procedures)
    (h : Alike ρ code keepers q binding) : Agrees ρ t q binding := by
  intro d hd s hs
  obtain ⟨i, hi⟩ := List.getElem?_of_mem hd
  obtain ⟨hval, hpres⟩ := h i d s hi hs
  constructor
  · intro lit hfix
    exact hval _ (passes_of_fixedLiteral hv hscan hlit hq hi hs hfix)
  · intro b hfix
    exact hpres b (present_of_fixedPresence hv hscan hq hi hs hfix)

/-! ## Runs -/

/-- Every frame agrees, and has only optional dummies absent. -/
structure Invariant (ρ : Env P) (code : Code ConstEval.Expr) (t : Table P)
    (stack : List (RunFrame P)) : Prop where
  occurs : ∀ fr ∈ stack, ∀ i ∈ fr.todo, Occurs code i
  absent : ∀ fr ∈ stack, AbsentOptional code fr.binding
  agrees : ∀ fr ∈ stack, ∀ q ∈ code.procedures, fr.procedure = some q.spec →
    Agrees ρ t q fr.binding

/-- The innermost frame does something else next. -/
theorem Invariant.withTodo {rest : List (RunFrame P)}
    {todo todo' : List (Item ConstEval.Expr)}
    (h : Invariant ρ code t ({ fr with todo } :: rest)) (ho : ∀ i ∈ todo', Occurs code i) :
    Invariant ρ code t ({ fr with todo := todo' } :: rest) := by
  refine ⟨?_, ?_, ?_⟩
  · intro fr' hfr'
    rcases mem_cons.mp hfr' with rfl | hfr'
    · exact ho
    · exact h.occurs fr' (mem_cons_of_mem _ hfr')
  · intro fr' hfr'
    rcases mem_cons.mp hfr' with rfl | hfr'
    · exact h.absent { fr with todo } (mem_cons_self ..)
    · exact h.absent fr' (mem_cons_of_mem _ hfr')
  · intro fr' hfr'
    rcases mem_cons.mp hfr' with rfl | hfr'
    · exact h.agrees { fr with todo } (mem_cons_self ..)
    · exact h.agrees fr' (mem_cons_of_mem _ hfr')

/-- An activation that agrees. -/
theorem Invariant.push (hv : ValidCode code) {stack : List (RunFrame P)}
    (h : Invariant ρ code t stack) (hq : q ∈ code.procedures)
    (hb : AbsentOptional code binding)
    (ha : Agrees ρ t q binding) : Invariant ρ code t (st.push q binding stack).stack := by
  refine ⟨?_, ?_, ?_⟩
  · intro fr hfr
    rcases mem_cons.mp hfr with rfl | hfr
    · intro i hi
      obtain rfl := mem_singleton.mp hi
      exact occurs_body (mem_cons_of_mem _ (mem_map.mpr ⟨q, hq, rfl⟩))
    · exact h.occurs fr hfr
  · intro fr hfr
    rcases mem_cons.mp hfr with rfl | hfr
    · exact hb
    · exact h.absent fr hfr
  · intro fr hfr q' hq' hspec
    rcases mem_cons.mp hfr with rfl | hfr
    · obtain rfl := inj_on_of_nodup_map hv.specs hq hq' (Option.some.inj hspec)
      exact ha
    · exact h.agrees fr hfr q' hq' hspec

/-- An inherited absent dummy is optional. -/
theorem absentOptional_inherited (h : Invariant ρ code t st.stack)
    {x : Option (Binding (Option (Value P)))} (hi : Inherited st s x) (hx : x = some .absent) :
    code.isOptional s = true := by
  rcases hi with rfl | ⟨fr, hfr, rfl⟩
  · cases hx
  · exact h.absent fr hfr s hx

variable {args : List Actual}

theorem absentOptional_associated (h : Invariant ρ code t st.stack)
    (hq : q ∈ code.procedures)
    (ha : Associated code (fortran ρ) st fr q args binding) : AbsentOptional code binding := by
  intro s hs
  by_cases hown : ∀ d ∈ q.dummies, d.spec ≠ some s
  · exact absentOptional_inherited h (ha.host s hown) hs
  · push Not at hown
    obtain ⟨d, hd, hds⟩ := hown
    obtain ⟨i, hi⟩ := List.getElem?_of_mem hd
    have hdummy := ha.dummy i d s hi hds
    refine isOptional_of_dummy hq hd hds ?_
    rcases hact : actualOf args i d.name with _ | e <;> rw [hact] at hdummy
    · exact hdummy.2
    · obtain ⟨x, -, hx, hopt⟩ := hdummy
      rw [hs] at hx
      exact hopt (Option.some.inj hx).symm

theorem absentOptional_somehow (h : Invariant ρ code t st.stack)
    (ha : AssociatedSomehow code (fortran ρ) st fr args binding) : AbsentOptional code binding := by
  intro s hs
  rcases ha s with hi | ⟨-, ho⟩ | ⟨v, hb⟩ | ⟨a, -, x, -, hb, ho⟩
  · exact absentOptional_inherited h hi hs
  · exact ho
  · rw [hb] at hs
    cases hs
  · rw [hb] at hs
    exact ho (Option.some.inj hs)

/-- **One step** keeps the invariant. -/
theorem Invariant.step (hv : ValidCode code) (hscan : scanCalls P tolerate code keepers = .ok t)
    (hlit : LiteralsAgree ρ tolerate code keepers) {st st' : RunState P}
    (h : Invariant ρ code t st.stack) (hs : CountedStep ρ code keepers st st') :
    Invariant ρ code t st'.stack := by
  obtain ⟨hstep, hcount⟩ := hs
  have hpop : ∀ {fr : RunFrame P} {i : Item ConstEval.Expr} {k : List (Item ConstEval.Expr)}
      {rest : List (RunFrame P)}, st.stack = { fr with todo := i :: k } :: rest →
      Occurs code i ∧ AbsentOptional code fr.binding ∧
        Invariant ρ code t ({ fr with todo := k } :: rest) := by
    intro fr i k rest hst
    rw [hst] at h
    have htop := h.occurs _ (mem_cons_self ..)
    refine ⟨htop i (mem_cons_self ..),
      h.absent { fr with todo := i :: k } (mem_cons_self ..), ?_⟩
    exact h.withTodo fun j hj => htop j (mem_cons_of_mem _ hj)
  cases hstep with
  | @run fr rest s k items hst hu =>
    obtain ⟨ho, -, hp⟩ := hpop hst
    refine hp.withTodo ?_
    intro i hi
    rcases mem_append.mp hi with hi | hi
    · exact hu.occurs ho i hi
    · exact hp.occurs _ (mem_cons_self ..) i hi
  | notEvaluated hst => exact (hpop hst).2.2
  | @call fr rest c opt k q binding hst hq hfn ha =>
    obtain ⟨ho, habs, hp⟩ := hpop hst
    refine hp.push hv hq (absentOptional_associated h hq ha) (Alike.agrees hv hscan hlit hq ?_)
    by_cases hc : Counted code keepers c q
    · have habs' : AbsentOptional code
          ({ fr with todo := .invoke c opt :: k } : RunFrame P).binding := habs
      exact alike_of_counted hc habs' ha
    · exact hcount c q binding ⟨hq, fr, rest, opt, k, hst, rfl⟩ hc
  | @dispatch fr rest c opt k q binding hst hq hfn ha =>
    obtain ⟨-, -, hp⟩ := hpop hst
    refine hp.push hv hq (absentOptional_somehow h ha) (Alike.agrees hv hscan hlit hq ?_)
    refine hcount c q binding ⟨hq, fr, rest, opt, k, hst, rfl⟩ ?_
    intro hc
    rw [hc.looked.names] at hfn
    cases hfn
  | external hst _ _ _ => exact (hpop hst).2.2
  | define hst _ _ => exact (hpop hst).2.2
  | associate hst _ _ _ => exact (hpop hst).2.2
  | @finish fr rest hst =>
    have hmem : ∀ fr' ∈ rest, fr' ∈ st.stack := by
      intro fr' hfr'
      rw [hst]
      exact mem_cons_of_mem _ hfr'
    exact ⟨fun fr' hfr' => h.occurs fr' (hmem fr' hfr'),
      fun fr' hfr' => h.absent fr' (hmem fr' hfr'),
      fun fr' hfr' => h.agrees fr' (hmem fr' hfr')⟩

/-- Before the first statement. -/
theorem initial_invariant (h : Initial code st) :
    Invariant ρ code t st.stack := by
  rw [h.stack_eq]
  refine ⟨?_, ?_, ?_⟩
  · intro fr hfr i hi
    obtain rfl := mem_singleton.mp hfr
    obtain rfl := mem_singleton.mp hi
    exact occurs_body (mem_cons_self ..)
  · intro fr hfr s hs
    obtain rfl := mem_singleton.mp hfr
    cases hs
  · intro fr hfr q _ hq
    obtain rfl := mem_singleton.mp hfr
    cases hq

/-- Where every frame agrees, whatever is replaced has its value. -/
theorem Invariant.foldedRight (hv : ValidCode code)
    (h : Invariant ρ code t st.stack) : FoldedRight ρ code t st := by
  intro fr hfr q hq hspec d hd s hs
  obtain ⟨hval, hpres⟩ := h.agrees fr hfr q hq hspec d hd s hs
  have hloc : ∀ x, fr.binding s = some x → fr.locate code s = x := by
    intro x hx
    unfold Frame.locate
    rw [if_neg (hv.module q hq d hd s hs), hx]
    rfl
  constructor
  · intro lit hlit
    unfold dummyValue
    rw [hloc _ (hval lit hlit)]
  · intro b hb
    obtain ⟨x, hx, hiff⟩ := hpres b hb
    unfold dummyValue
    rw [hloc x hx, ← hiff]
    cases x <;> simp

/-- **The pass is sound where it sees every call**: in a run that starts no activation but by
calls it looks at, or one that is like them, whatever is replaced has the value, and the presence,
that it is replaced by. -/
theorem makeArgumentConstants_sound (hv : ValidCode code)
    (hscan : scanCalls P tolerate code keepers = .ok t)
    (hlit : LiteralsAgree ρ tolerate code keepers) {st₀ st : RunState P} (h₀ : Initial code st₀)
    (hrun : Relation.ReflTransGen (CountedStep ρ code keepers) st₀ st) :
    FoldedRight ρ code t st := by
  have h : Invariant ρ code t st.stack := by
    induction hrun with
    | refl => exact initial_invariant h₀
    | tail _ hs ih => exact ih.step hv hscan hlit hs
  exact h.foldedRight hv

/-! ## A call the pass looks at -/

/-- The statement `call name(m)`. -/
def callWith (name : Procedures.Name) (m : ℤ) : Stmt ConstEval.Expr :=
  .call (.name name) (.cons none (.literal (.intLiteral m .default)) .nil)

/-- Its call. -/
def callItem (name : Procedures.Name) (m : ℤ) : Call ConstEval.Expr :=
  ⟨.name name, .cons none (.literal (.intLiteral m .default)) .nil, true⟩

/-- `subroutine s(x); integer, intent(in) :: x; end subroutine s`. -/
def subroutineS : Procedure ConstEval.Expr :=
  ⟨["s"], [⟨"x", some ["s", "x"], false, true, false, false⟩], .skip⟩

/-- The name `s`. -/
def nameS : Procedures.Name := ⟨"s", some (.subroutine ["s"])⟩

/-- The main program `call s(1)`. -/
def callProgram : Code ConstEval.Expr := ⟨[subroutineS], callWith nameS 1, [], fun _ => false⟩

/-- The dummy `x` with a value. -/
def bindX (m : ℤ) : Spec → Option (Binding (Option (Value exactProcessor))) :=
  fun s => if s = ["s", "x"] then some (.value (some (.int 4 m))) else none

/-- The frame of the main program. -/
def mainFrame (todo : List (Item ConstEval.Expr)) : RunFrame exactProcessor :=
  ⟨0, none, fun _ => none, todo⟩

/-- A state with these frames. -/
def stateOf (next : ℕ) (stack : List (RunFrame exactProcessor)) : RunState exactProcessor :=
  ⟨stack, fun _ => none, fun _ => False, next⟩

/-- The subroutine has been called. -/
def calledState (m : ℤ) (k : List (Item ConstEval.Expr)) : RunState exactProcessor :=
  stateOf 2 [⟨1, some ["s"], bindX m, [.run .skip]⟩, mainFrame k]

theorem step_callWith (code : Code ConstEval.Expr) (name : Procedures.Name) (m : ℤ)
    (k : List (Item ConstEval.Expr)) :
    Step code (fortran Env.empty) (stateOf 1 [mainFrame (.run (callWith name m) :: k)])
      (stateOf 1 [mainFrame (.invoke (callItem name m) false :: k)]) := by
  have hu : Unfolds (callWith name m) [.invoke (callItem name m) false] :=
    Unfolds.call (Callee.name name)
      (.cons none (.literal (ConstEval.Expr.intLiteral m .default)) .nil)
  have hst : (stateOf 1 [mainFrame (.run (callWith name m) :: k)]).stack =
      [{ mainFrame [] with todo := .run (callWith name m) :: k }] := rfl
  exact Step.run hst hu

variable {st : RunState exactProcessor}

/-- What a call passes. -/
theorem passes_literal_int {code : Code ConstEval.Expr}
    {fr : RunFrame exactProcessor} {m : ℤ}
    (hm : fortran (Env.empty (P := exactProcessor)) (.intLiteral m .default) = some (.int 4 m)) :
    Passes code (fortran Env.empty) st fr (.literal (.intLiteral m .default))
      (.value (some (.int 4 m))) := by
  rw [← hm]
  exact Passes.literal _

/-- An entity that is not the dummy is not associated. -/
theorem inherited_bindX {m : ℤ} (hs : s ≠ ["s", "x"]) :
    Inherited st s (bindX m s) := by
  unfold bindX
  rw [if_neg hs]
  exact Or.inl rfl

theorem callProgram_valid : ValidCode callProgram := by
  refine ⟨by decide, ?_, ?_, ?_⟩
  · intro q hq q' hq' d hd d' hd' s _ _
    obtain rfl := mem_singleton.mp hq
    obtain rfl := mem_singleton.mp hq'
    exact ⟨rfl, (mem_singleton.mp hd).trans (mem_singleton.mp hd').symm⟩
  · intro q _ d _ s _
    exact not_mem_nil
  · intro c hc
    obtain rfl := mem_singleton.mp hc
    exact .positional (.keywords (fun _ ha => absurd ha not_mem_nil) nodup_nil)

theorem callProgram_counted : Counted callProgram [] (callItem nameS 1) subroutineS := by
  refine ⟨⟨mem_singleton_self _, rfl, rfl, mem_singleton_self _, not_mem_nil⟩, ?_⟩
  intro i d e _ _ _
  rfl

/-- Every literal that is passed is the literal 1. -/
theorem callProgram_passes
    (h : PassesLiteral callProgram [] s x) : x = .intLiteral 1 .default := by
  obtain ⟨c, q, i, d, hd, hx⟩ := h
  obtain rfl := mem_singleton.mp hd.looked.mem
  obtain rfl := mem_singleton.mp hd.looked.procedure
  rcases i with _ | i
  · obtain rfl := Option.some.inj hd.dummy
    exact (Procedures.Expr.literal.inj (Option.some.inj hx)).symm
  · cases hd.dummy

theorem callProgram_literalsAgree :
    LiteralsAgree (Env.empty (P := exactProcessor)) false callProgram [] := by
  intro s x y w v lit hx hy _ hv _ hlit
  obtain rfl := callProgram_passes hx
  obtain rfl := callProgram_passes hy
  have hone : some (Scalar.ofInt (P := exactProcessor) NpInt.int32 1) = some v := Except.ok.inj hv
  rw [← Option.some.inj hone] at hlit
  have hwritten : ConstEval.Expr.intLiteral 1 .default = lit := Except.ok.inj hlit
  rw [← hwritten]

/-- The call starts the activation. -/
theorem step_callProgram :
    Step callProgram (fortran (Env.empty (P := exactProcessor)))
      (stateOf 1 [mainFrame [.invoke (callItem nameS 1) false]]) (calledState 1 []) := by
  have hst : (stateOf 1 [mainFrame [.invoke (callItem nameS 1) false]]).stack =
      [{ mainFrame [] with todo := [.invoke (callItem nameS 1) false] }] := rfl
  have hq : subroutineS ∈ callProgram.procedures := mem_singleton_self _
  refine Step.call hst hq rfl ⟨?_, ?_⟩
  · intro i d s hi hs
    rcases i with _ | i
    · obtain rfl := Option.some.inj hi
      obtain rfl := Option.some.inj hs
      exact ⟨_, passes_literal_int rfl, rfl, nofun⟩
    · cases hi
  · intro s hs
    refine inherited_bindX ?_
    rintro rfl
    exact hs _ (mem_singleton_self _) rfl

/-- After `call s(1)` the dummy has the value 1 that its uses are replaced by. -/
theorem callProgram_foldedRight :
    ∃ t, scanCalls exactProcessor false callProgram [] = .ok t ∧
      t.fixedLiteral ["s", "x"] = some (.intLiteral 1 .default) ∧
      FoldedRight Env.empty callProgram t (calledState 1 []) := by
  refine ⟨_, rfl, rfl, ?_⟩
  have hinit : Initial callProgram (stateOf 1 [mainFrame [.run callProgram.main]]) :=
    ⟨rfl, fun _ => id⟩
  refine makeArgumentConstants_sound callProgram_valid (rfl : scanCalls _ false callProgram [] = _)
    callProgram_literalsAgree hinit ?_
  refine (Relation.ReflTransGen.single ⟨step_callWith callProgram nameS 1 [], ?_⟩).tail
    ⟨step_callProgram, ?_⟩
  · rintro c q binding ⟨hq, fr, rest, opt, k, hst, -⟩ hn
    obtain rfl := List.mem_singleton.mp hq
    have htodo := congrArg Frame.todo (List.cons.inj hst).1
    obtain rfl : callItem nameS 1 = c := (Item.invoke.inj (List.cons.inj htodo).1).1
    exact absurd callProgram_counted hn
  · rintro c q binding ⟨-, fr, rest, opt, k, hst, -⟩
    have htodo := congrArg Frame.todo (List.cons.inj hst).1
    cases htodo

/-! ## A call the pass skips -/

/-- The name `g` of a generic interface for `s`. -/
def nameG : Procedures.Name := ⟨"g", some .generic⟩

/-- `interface g; procedure s; end interface` and the main program `call g(2); call s(1)`. -/
def genericProgram : Code ConstEval.Expr :=
  ⟨[subroutineS], .seq (callWith nameG 2) (callWith nameS 1), [], fun _ => false⟩

/-- **The pass is not sound**: the uses of `x` are replaced by 1, and the call through the generic
interface passes 2. -/
theorem not_sound_genericCall :
    ¬Sound (Env.empty (P := exactProcessor)) false genericProgram [] := by
  intro hsound
  have hfold := hsound _ rfl (stateOf 1 [mainFrame [.run genericProgram.main]])
    (calledState 2 [.run (callWith nameS 1)]) ⟨rfl, fun _ => id⟩ ?_
  · have h := (hfold _ (List.mem_cons_self ..) subroutineS (List.mem_singleton_self _) rfl _
      (List.mem_singleton_self _) ["s", "x"] rfl).1 (.intLiteral 1 .default) rfl
    have h' : some (some (Value.int (P := exactProcessor) 4 2)) = some (some (.int 4 1)) := h
    simp at h'
  · have hst : (stateOf 1 [mainFrame [.run genericProgram.main]]).stack =
        [{ mainFrame [] with todo := .run genericProgram.main :: [] }] := rfl
    refine ((Relation.ReflTransGen.single (Step.run hst (Unfolds.seq _ _))).tail
      (step_callWith genericProgram nameG 2 [.run (callWith nameS 1)])).tail ?_
    have hst' : (stateOf 1 [mainFrame [.invoke (callItem nameG 2) false,
        .run (callWith nameS 1)]]).stack = [{ mainFrame [] with
          todo := .invoke (callItem nameG 2) false :: [.run (callWith nameS 1)] }] := rfl
    have hq : subroutineS ∈ genericProgram.procedures := List.mem_singleton_self _
    refine Step.dispatch hst' hq rfl ?_
    intro s
    by_cases hs : s = ["s", "x"]
    · rw [hs]
      exact Or.inr (Or.inr (Or.inl ⟨_, rfl⟩))
    · exact Or.inl (inherited_bindX hs)

end ArgumentConstants
