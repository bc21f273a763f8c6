/-
# `make_practically_constant_arguments_constants`

The pass of `ast_desugaring/optimizations.py` that replaces the uses of a dummy
argument by a literal when every call it looks at passes that literal, and
`PRESENT` of an optional one when every such call agrees on its presence.
The literals are those of the constant evaluator.
-/
import DaceFortran.Procedures.Run
import DaceFortran.ConstEval.FortranValue
import DaceFortran.Lib.Fallible

open Procedures ConstEval List

namespace ArgumentConstants

/-- The equality of specs, under a name of its own. -/
scoped instance lawfulSpec : LawfulBEq (List String) := List.instLawfulBEq

variable {P : Processor}

/-! ## Sets of scalars -/

/-- A scalar in a numeric comparison: `np.bool_` counts as 0 or 1. -/
def numeric : Scalar P → Scalar P
  | .bool b => .ofInt .int8 (if b then 1 else 0)
  | v => v

/-- Python's `==` on numpy scalars, which is what a `set` goes by. -/
def pyEq (v w : Scalar P) : Bool :=
  match promote (numeric v) (numeric w) with
  | some p => (cmpValue .eq p).truthy
  | none => false

/-- The same with `None` among the elements. -/
def pyEq? : Option (Scalar P) → Option (Scalar P) → Bool
  | none, none => true
  | some v, some w => pyEq v w
  | _, _ => false

/-- `set.add` for an equality: an equal element stays as it is. -/
def setAdd {α : Type} (eq : α → α → Bool) (x : α) (l : List α) : List α :=
  if l.any (eq x) then l else l ++ [x]

/-! ## The table of possible values -/

/-- The three tables the first pass fills; a dummy without an entry has the empty list. -/
structure Table (P : Processor) where
  possible : Spec → List (Option (Scalar P))
  undecidable : Spec → Bool
  presence : Spec → List Bool

/-- The tables before the first call. -/
def Table.empty : Table P where
  possible _ := []
  undecidable _ := false
  presence _ := []

/-- `fnargs_possible_values[aspec].add(v)`. -/
def Table.addPossible (t : Table P) (s : Spec) (v : Option (Scalar P)) : Table P :=
  { t with possible := fun s' => if s' = s then setAdd pyEq? v (t.possible s') else t.possible s' }

/-- `fnargs_undecidables.add(aspec)`. -/
def Table.addUndecidable (t : Table P) (s : Spec) : Table P :=
  { t with undecidable := fun s' => if s' = s then true else t.undecidable s' }

/-- `fnargs_optional_presence[aspec].add(b)`. -/
def Table.addPresence (t : Table P) (s : Spec) (b : Bool) : Table P :=
  { t with presence := fun s' =>
      if s' = s then setAdd (· == ·) b (t.presence s') else t.presence s' }

/-! ## One call -/

/-- An actual argument with its keyword. -/
abbrev Actual := Option String × Procedures.Expr ConstEval.Expr

/-- `kwargs`: of two arguments with one keyword the last one counts. -/
def kwargs (args : List Actual) (name : String) : Option (Procedures.Expr ConstEval.Expr) :=
  (args.reverse.find? fun a => a.1 = some name).map Prod.snd

/-- Whether the actual is a bare reference to an optional dummy. -/
def forwardedOptional (code : Code ConstEval.Expr) :
    Option (Procedures.Expr ConstEval.Expr) → Bool
  | some (.name ⟨_, some (.entity s)⟩) => code.isOptional s
  | _ => false

/-- The presence a call records for an optional dummy. -/
def recordPresence (code : Code ConstEval.Expr) (d : Dummy) (s : Spec)
    (v : Option (Procedures.Expr ConstEval.Expr)) (t : Table P) : Table P :=
  if !d.optional then t
  else if forwardedOptional code v then (t.addPresence s true).addPresence s false
  else t.addPresence s v.isSome

/-- The value a call records for a dummy. -/
def recordValue (P : Processor) (tolerate : Bool) (d : Dummy) (s : Spec)
    (v : Option (Procedures.Expr ConstEval.Expr)) (t : Table P) : Except Raised (Table P) :=
  -- writable arguments cannot be treated as practically constant
  if d.out then .ok t
  else if !d.inp then .error .assertionError
  else if d.shape then .ok t
  else
    match v with
    | some (.literal x) => do
      match ← constEval P tolerate x with
      | some w => return t.addPossible s (some w)
      | none => .error .assertionError
    | none => if d.optional then .ok (t.addPossible s none) else .error .assertionError
    | some _ => .ok (t.addUndecidable s)

variable (P) in
/-- The loop over the dummies of the callee; `args` are the actuals that are left. -/
def scanDummies (tolerate : Bool) (code : Code ConstEval.Expr)
    (kw : String → Option (Procedures.Expr ConstEval.Expr)) :
    List (Dummy × Spec) → List Actual → Table P → Except Raised (Table P)
  | [], _, t => .ok t
  | (d, s) :: rest, [], t =>
    -- the remaining dummies must be optional
    if d.optional then scanDummies tolerate code kw rest [] (t.addPresence s false)
    else .error .assertionError
  | (d, s) :: rest, (none, e) :: args, t => do
    let t ← recordValue P tolerate d s (some e) (recordPresence code d s (some e) t)
    scanDummies tolerate code kw rest args t
  | (d, s) :: rest, (some k, e) :: args, t =>
    if (kw d.name).isSome ∨ d.optional then do
      let t ← recordValue P tolerate d s (kw d.name) (recordPresence code d s (kw d.name) t)
      scanDummies tolerate code kw rest ((some k, e) :: args) t
    else .error .assertionError

/-- The dummies with the specs that the table has for them. -/
def Procedure.resolved {L : Type} (q : Procedure L) : List (Dummy × Spec) :=
  q.dummies.filterMap fun d => d.spec.map (d, ·)

variable (P) in
/-- One round of the first pass: a `Function_Reference` or `Call_Stmt`. -/
def scanCall (tolerate : Bool) (code : Code ConstEval.Expr) (keepers : List Spec) (t : Table P)
    (c : Call ConstEval.Expr) : Except Raised (Table P) :=
  let args := c.args.toList
  match c.fn with
  | .intrinsic _ => .ok t
  | .bound _ _ => .ok t
  | .name ⟨_, none⟩ => if tolerate then .ok t else .error .assertionError
  | .name ⟨_, some .generic⟩ => .ok t
  | .name ⟨_, some (.interfaceBody _)⟩ => .ok t
  | fn =>
    match fn.procedure?.bind fun s => code.procedures.find? fun q => q.spec = s with
    -- no procedure: there are no dummies to match
    | none => if args = [] then .ok t else .error .assertionError
    | some q =>
      if q.spec ∈ keepers then .ok t
      else if q.dummies.length < args.length then .error .assertionError
      else if (Procedure.resolved q).length ≠ q.dummies.length then
        .ok ((Procedure.resolved q).foldl (fun t ds => t.addUndecidable ds.2) t)
      else scanDummies P tolerate code (kwargs args) (Procedure.resolved q) args t

variable (P) in
/-- The first pass. -/
def scanCalls (tolerate : Bool) (code : Code ConstEval.Expr) (keepers : List Spec) :
    Except Raised (Table P) :=
  (code.calls.filter Call.walked).foldlM (scanCall P tolerate code keepers) Table.empty

/-! ## What is replaced -/

/-- The third pass: the one value a dummy is replaced by. -/
def Table.fixedValue (t : Table P) (s : Spec) : Option (Scalar P) :=
  if t.undecidable s ∨ false ∈ t.presence s then none
  else
    match t.possible s with
    | [v] => v
    | _ => none

/-- The literal that replaces the uses of a dummy. -/
def Table.fixedLiteral (t : Table P) (s : Spec) : Option ConstEval.Expr :=
  match t.fixedValue s with
  | some v => (numpyTypeToLiteral v).toOption
  | none => none

/-- The second pass: the truth value that replaces `PRESENT` of a dummy. -/
def Table.fixedPresence (t : Table P) (s : Spec) : Option Bool :=
  match t.presence s with
  | [b] => some b
  | _ => none

/-! ## What the pass should do -/

/-- The value of a dummy in a frame. -/
def dummyValue {V : Type} (code : Code ConstEval.Expr) (st : State ConstEval.Expr V)
    (fr : Frame ConstEval.Expr V) (s : Spec) : Option V :=
  match fr.locate code s with
  | .value v => some v
  | .object l => some (st.store l)
  | .absent => none

/-- In a state every dummy has the value, and the presence, that its uses are replaced by. -/
def FoldedRight (ρ : Env P) (code : Code ConstEval.Expr) (t : Table P)
    (st : State ConstEval.Expr (Option (Value P))) : Prop :=
  ∀ fr ∈ st.stack, ∀ q ∈ code.procedures, fr.procedure = some q.spec →
    ∀ d ∈ q.dummies, ∀ s, d.spec = some s →
      (∀ lit, t.fixedLiteral s = some lit →
        dummyValue code st fr s = some (fortran ρ lit)) ∧
      ∀ b, t.fixedPresence s = some b → ((dummyValue code st fr s).isSome ↔ b = true)

/-- **What the pass should do**: in every run, whatever is replaced has the value that it is
replaced by. -/
def Sound (ρ : Env P) (tolerate : Bool) (code : Code ConstEval.Expr) (keepers : List Spec) : Prop :=
  ∀ t, scanCalls P tolerate code keepers = .ok t → ∀ st₀ st, Initial code st₀ →
    Relation.ReflTransGen (Step code (fortran ρ)) st₀ st → FoldedRight ρ code t st

end ArgumentConstants

/-
# What the first pass records

The tables only grow (`Table.Le`).  For every call that is looked at, and every
dummy of its procedure, they record the actual argument (`Recorded`); and
whatever they record comes from such a call (`Origin`).
-/

open Procedures ConstEval Fallible

namespace ArgumentConstants

variable {P : Processor} {tolerate : Bool} {code : Code ConstEval.Expr} {keepers : List Spec}
variable {t t' : Table P} {s : Spec}

/-! ## Growing tables -/

/-- The second table records what the first does. -/
structure Table.Le (t t' : Table P) : Prop where
  possible : ∀ s, t.possible s ⊆ t'.possible s
  undecidable : ∀ s, t.undecidable s → t'.undecidable s
  presence : ∀ s, t.presence s ⊆ t'.presence s

theorem Table.Le.refl (t : Table P) : t.Le t :=
  ⟨fun _ => List.Subset.refl _, fun _ => id, fun _ => List.Subset.refl _⟩

theorem Table.Le.trans {t₁ t₂ t₃ : Table P} (h : t₁.Le t₂) (h' : t₂.Le t₃) : t₁.Le t₃ :=
  ⟨fun s => List.Subset.trans (h.possible s) (h'.possible s),
    fun s hs => h'.undecidable s (h.undecidable s hs),
    fun s => List.Subset.trans (h.presence s) (h'.presence s)⟩

variable {α : Type} {s' : Spec} {o : Option (Scalar P)}

theorem subset_setAdd (eq : α → α → Bool) (x : α) (l : List α) :
    l ⊆ setAdd eq x l := by
  unfold setAdd
  split_ifs
  · exact List.Subset.refl _
  · exact subset_append_left _ _

variable {eq : α → α → Bool}

theorem mem_setAdd {x y : α} {l : List α}
    (h : y ∈ setAdd eq x l) : y ∈ l ∨ y = x := by
  unfold setAdd at h
  split_ifs at h
  · exact Or.inl h
  · exact (mem_append.mp h).imp id mem_singleton.mp

/-- An element that is added has an equal one. -/
theorem exists_mem_setAdd (x : α) (l : List α)
    (hx : eq x x = true) : ∃ y ∈ setAdd eq x l, eq x y = true := by
  unfold setAdd
  split_ifs with h
  · exact any_eq_true.mp h
  · exact ⟨x, mem_append_right _ (mem_singleton_self _), hx⟩

theorem le_addPossible (t : Table P) (s : Spec) (v : Option (Scalar P)) :
    t.Le (t.addPossible s v) := by
  refine ⟨?_, fun _ => id, fun _ => List.Subset.refl _⟩
  intro s'
  unfold Table.addPossible
  by_cases h : s' = s
  · simp only [h, if_true]
    exact subset_setAdd _ _ _
  · simp only [h, if_false]
    exact List.Subset.refl _

theorem le_addUndecidable (t : Table P) (s : Spec) : t.Le (t.addUndecidable s) := by
  refine ⟨fun _ => List.Subset.refl _, ?_, fun _ => List.Subset.refl _⟩
  intro s' hs
  unfold Table.addUndecidable
  by_cases h : s' = s
  · simp only [h, if_true]
  · simp only [h, if_false]
    exact hs

theorem le_addPresence (t : Table P) (s : Spec) (b : Bool) : t.Le (t.addPresence s b) := by
  refine ⟨fun _ => List.Subset.refl _, fun _ => id, ?_⟩
  intro s'
  unfold Table.addPresence
  by_cases h : s' = s
  · simp only [h, if_true]
    exact subset_setAdd _ _ _
  · simp only [h, if_false]
    exact List.Subset.refl _

theorem mem_addPresence (t : Table P) (s : Spec) (b : Bool) :
    b ∈ (t.addPresence s b).presence s := by
  unfold Table.addPresence
  simp only [if_true]
  have hb : (fun x y : Bool => x == y) b b = true := beq_self_eq_true b
  obtain ⟨y, hy, heq⟩ := exists_mem_setAdd b (t.presence s) hb
  obtain rfl := beq_iff_eq.mp heq
  exact hy

theorem undecidable_addUndecidable (t : Table P) (s : Spec) :
    (t.addUndecidable s).undecidable s = true := by
  unfold Table.addUndecidable
  simp only [if_true]

/-- A value that is added is there, or one that `set` takes for it. -/
theorem mem_addPossible (t : Table P) (s : Spec) (v : Option (Scalar P)) :
    ∃ o ∈ (t.addPossible s v).possible s, o = v ∨ pyEq? v o = true := by
  unfold Table.addPossible setAdd
  simp only [if_true]
  split_ifs with h
  · obtain ⟨o, ho, heq⟩ := any_eq_true.mp h
    exact ⟨o, ho, Or.inr heq⟩
  · exact ⟨v, mem_append_right _ (mem_singleton_self _), Or.inl rfl⟩

/-! ## What a call records for one dummy -/

/-- The tables record an actual argument of a dummy, or its absence. -/
structure Recorded (P : Processor) (tolerate : Bool) (code : Code ConstEval.Expr) (t : Table P)
    (d : Dummy) (s : Spec) (v : Option (Procedures.Expr ConstEval.Expr)) : Prop where
  absent : v = none → false ∈ t.presence s
  present : d.optional = true → v.isSome = true → true ∈ t.presence s
  forwarded : d.optional = true → forwardedOptional code v = true → false ∈ t.presence s
  value : d.out = false → d.shape = false → ∀ e, v = some e → t.undecidable s = true ∨
    ∃ x w, e = .literal x ∧ constEval P tolerate x = .ok (some w) ∧
      ∃ o ∈ t.possible s, o = some w ∨ pyEq? (some w) o = true

variable {d : Dummy} {v : Option (Procedures.Expr ConstEval.Expr)}

theorem Recorded.mono
    (h : Recorded P tolerate code t d s v) (hle : t.Le t') : Recorded P tolerate code t' d s v := by
  refine ⟨fun hv => hle.presence s (h.absent hv), fun ho hv => hle.presence s (h.present ho hv),
    fun ho hv => hle.presence s (h.forwarded ho hv), ?_⟩
  intro hout hshape e he
  rcases h.value hout hshape e he with hu | ⟨x, w, hx, hw, o, ho, heq⟩
  · exact Or.inl (hle.undecidable s hu)
  · exact Or.inr ⟨x, w, hx, hw, o, hle.possible s ho, heq⟩

theorem le_recordPresence (code : Code ConstEval.Expr) (d : Dummy) (s : Spec)
    (v : Option (Procedures.Expr ConstEval.Expr)) (t : Table P) :
    t.Le (recordPresence code d s v t) := by
  unfold recordPresence
  split_ifs
  · exact Table.Le.refl t
  · exact (le_addPresence t s true).trans (le_addPresence _ s false)
  · exact le_addPresence t s _

/-- What the record of a value may do. -/
theorem recordValue_cases
    (h : recordValue P tolerate d s v t = .ok t') :
    ((d.out = true ∨ d.shape = true) ∧ t' = t) ∨ d.out = false ∧ d.shape = false ∧
      ((∃ x w, v = some (.literal x) ∧ constEval P tolerate x = .ok (some w) ∧
          t' = t.addPossible s (some w)) ∨
        (v = none ∧ d.optional = true ∧ t' = t.addPossible s none) ∨
        ((∀ x, v ≠ some (.literal x)) ∧ t' = t.addUndecidable s)) := by
  unfold recordValue at h
  by_cases hout : d.out = true
  · rw [if_pos hout] at h
    exact Or.inl ⟨Or.inl hout, (Except.ok.inj h).symm⟩
  rw [if_neg hout] at h
  by_cases hinp : (!d.inp) = true
  · rw [if_pos hinp] at h
    cases h
  rw [if_neg hinp] at h
  by_cases hshape : d.shape = true
  · rw [if_pos hshape] at h
    exact Or.inl ⟨Or.inr hshape, (Except.ok.inj h).symm⟩
  rw [if_neg hshape] at h
  refine Or.inr ⟨by simpa using hout, by simpa using hshape, ?_⟩
  split at h
  case h_1 x =>
    obtain ⟨o, ho, h⟩ := ok_of_bind h
    cases o with
    | none => cases h
    | some w => exact Or.inl ⟨x, w, rfl, ho, (Except.ok.inj h).symm⟩
  case h_2 =>
    by_cases hopt : d.optional = true
    · rw [if_pos hopt] at h
      exact Or.inr (Or.inl ⟨rfl, hopt, (Except.ok.inj h).symm⟩)
    · rw [if_neg hopt] at h
      cases h
  case h_3 hlit =>
    refine Or.inr (Or.inr ⟨?_, (Except.ok.inj h).symm⟩)
    rintro x hx
    exact hlit x (Option.some.inj hx)

theorem le_recordValue
    (h : recordValue P tolerate d s v t = .ok t') : t.Le t' := by
  rcases recordValue_cases h with ⟨-, rfl⟩ | ⟨-, -, h⟩
  · exact Table.Le.refl _
  · rcases h with ⟨x, w, -, -, rfl⟩ | ⟨-, -, rfl⟩ | ⟨-, rfl⟩
    · exact le_addPossible t s _
    · exact le_addPossible t s _
    · exact le_addUndecidable t s

/-- **The record of one dummy.** -/
theorem recorded_of_record
    (hv : v.isSome = true ∨ d.optional = true)
    (h : recordValue P tolerate d s v (recordPresence code d s v t) = .ok t') :
    Recorded P tolerate code t' d s v := by
  have hle := le_recordValue h
  have hfalse : d.optional = true → v = none →
      false ∈ (recordPresence code d s v t).presence s := by
    rintro ho rfl
    simp only [recordPresence, ho, Bool.not_true, Bool.false_eq_true, if_false, forwardedOptional]
    exact mem_addPresence t s false
  refine ⟨?_, ?_, ?_, ?_⟩
  · rintro rfl
    apply hle.presence s
    rcases hv with hv | ho
    · cases hv
    · exact hfalse ho rfl
  · intro ho hsome
    apply hle.presence s
    unfold recordPresence
    rw [if_neg (by simp [ho])]
    split_ifs
    · exact (le_addPresence _ s false).presence s (mem_addPresence t s true)
    · rw [hsome]
      exact mem_addPresence t s true
  · intro ho hf
    apply hle.presence s
    unfold recordPresence
    rw [if_neg (by simp [ho]), if_pos hf]
    exact mem_addPresence _ s false
  · rintro hout hshape e rfl
    rcases recordValue_cases h with ⟨hno, -⟩ | ⟨-, -, ⟨x, w, hx, hw, rfl⟩ | ⟨hn, -⟩ | ⟨-, rfl⟩⟩
    · rw [hout, hshape] at hno
      simp at hno
    · exact Or.inr ⟨x, w, Option.some.inj hx, hw, mem_addPossible _ s _⟩
    · cases hn
    · exact Or.inl (undecidable_addUndecidable _ s)

/-! ## The loop over the dummies -/

/-- The actual argument that the loop takes for dummy number `j`. -/
def loopActual (kw : String → Option (Procedures.Expr ConstEval.Expr)) :
    List Actual → ℕ → String → Option (Procedures.Expr ConstEval.Expr)
  | [], _, _ => none
  | (none, e) :: _, 0, _ => some e
  | (none, _) :: args, j + 1, name => loopActual kw args j name
  | (some _, _) :: _, _, name => kw name

variable {kw : String → Option (Procedures.Expr ConstEval.Expr)}

/-- **The loop** records every dummy. -/
theorem scanDummies_recorded :
    ∀ {ds : List (Dummy × Spec)} {args : List Actual} {t t' : Table P},
      scanDummies P tolerate code kw ds args t = .ok t' →
      t.Le t' ∧ ∀ j d s, ds[j]? = some (d, s) →
        Recorded P tolerate code t' d s (loopActual kw args j d.name) := by
  intro ds
  induction ds with
  | nil =>
    intro args t t' h
    obtain rfl := Except.ok.inj h
    exact ⟨Table.Le.refl t, fun j d s hj => by cases hj⟩
  | cons q ds ih =>
    obtain ⟨d₀, s₀⟩ := q
    intro args t t' h
    rcases args with _ | ⟨⟨k, e⟩, args⟩
    · rw [scanDummies] at h
      split_ifs at h with ho
      obtain ⟨hle, hall⟩ := ih h
      refine ⟨(le_addPresence t s₀ false).trans hle, ?_⟩
      intro j d s hj
      rcases j with _ | j
      · obtain ⟨rfl, rfl⟩ := Prod.mk.inj (Option.some.inj hj)
        refine Recorded.mono ⟨fun _ => mem_addPresence t s₀ false, ?_, ?_, ?_⟩ hle
        · intro _ hv
          cases hv
        · intro _ hv
          cases hv
        · intro _ _ e he
          cases he
      · have hrec := hall j d s hj
        exact hrec
    · rcases k with _ | k
      · rw [scanDummies] at h
        obtain ⟨t₁, h₁, h⟩ := ok_of_bind h
        obtain ⟨hle, hall⟩ := ih h
        have hle₁ := (le_recordPresence code d₀ s₀ (some e) t).trans (le_recordValue h₁)
        refine ⟨hle₁.trans hle, ?_⟩
        intro j d s hj
        rcases j with _ | j
        · obtain ⟨rfl, rfl⟩ := Prod.mk.inj (Option.some.inj hj)
          exact (recorded_of_record (Or.inl rfl) h₁).mono hle
        · exact hall j d s hj
      · rw [scanDummies] at h
        split_ifs at h with hk
        obtain ⟨t₁, h₁, h⟩ := ok_of_bind h
        obtain ⟨hle, hall⟩ := ih h
        have hle₁ := (le_recordPresence code d₀ s₀ (kw d₀.name) t).trans (le_recordValue h₁)
        refine ⟨hle₁.trans hle, ?_⟩
        intro j d s hj
        have hloop : loopActual kw ((some k, e) :: args) j d.name = kw d.name := by
          cases j <;> rfl
        rw [hloop]
        rcases j with _ | j
        · obtain ⟨rfl, rfl⟩ := Prod.mk.inj (Option.some.inj hj)
          exact (recorded_of_record hk h₁).mono hle
        · have hrec := hall j d s hj
          have hloop' : loopActual kw ((some k, e) :: args) j d.name = kw d.name := by
            cases j <;> rfl
          rw [hloop'] at hrec
          exact hrec

/-! ## Where the records come from -/

theorem mem_recordPresence
    {b : Bool} (h : b ∈ (recordPresence code d s v t).presence s') :
    b ∈ t.presence s' ∨ s' = s ∧ d.optional = true := by
  have hadd : ∀ {t : Table P} {c : Bool}, b ∈ (t.addPresence s c).presence s' →
      b ∈ t.presence s' ∨ s' = s := by
    intro t c h
    unfold Table.addPresence at h
    by_cases hs : s' = s
    · exact Or.inr hs
    · simp only [hs, if_false] at h
      exact Or.inl h
  unfold recordPresence at h
  by_cases ho : d.optional = true
  · rw [if_neg (by simp [ho])] at h
    split_ifs at h
    · rcases hadd h with h | h
      · exact (hadd h).imp id fun hs => ⟨hs, ho⟩
      · exact Or.inr ⟨h, ho⟩
    · exact (hadd h).imp id fun hs => ⟨hs, ho⟩
  · rw [if_pos (by simpa using ho)] at h
    exact Or.inl h

theorem possible_recordPresence (d : Dummy) (v : Option (Procedures.Expr ConstEval.Expr))
    (s' : Spec) : (recordPresence code d s v t).possible s' = t.possible s' := by
  unfold recordPresence
  split_ifs <;> rfl

/-- A value that is recorded is that of the actual argument. -/
theorem mem_recordValue
    (h : recordValue P tolerate d s v t = .ok t')
    (ho : o ∈ t'.possible s') :
    o ∈ t.possible s' ∨ s' = s ∧ d.out = false ∧ d.shape = false ∧
      ∀ w, o = some w → ∃ x, v = some (.literal x) ∧ constEval P tolerate x = .ok (some w) := by
  have hadd : ∀ {u : Option (Scalar P)}, o ∈ (t.addPossible s u).possible s' →
      o ∈ t.possible s' ∨ s' = s ∧ o = u := by
    intro u ho
    unfold Table.addPossible at ho
    by_cases hs : s' = s
    · simp only [hs, if_true] at ho
      rcases mem_setAdd ho with ho | ho
      · rw [hs]
        exact Or.inl ho
      · exact Or.inr ⟨hs, ho⟩
    · simp only [hs, if_false] at ho
      exact Or.inl ho
  rcases recordValue_cases h with ⟨-, rfl⟩ | ⟨hout, hshape,
    ⟨x, w, hx, hw, rfl⟩ | ⟨-, -, rfl⟩ | ⟨-, rfl⟩⟩
  · exact Or.inl ho
  · rcases hadd ho with ho | ⟨hs, rfl⟩
    · exact Or.inl ho
    · refine Or.inr ⟨hs, hout, hshape, ?_⟩
      intro w' hw'
      obtain rfl := Option.some.inj hw'
      exact ⟨x, hx, hw⟩
  · rcases hadd ho with ho | ⟨hs, rfl⟩
    · exact Or.inl ho
    · exact Or.inr ⟨hs, hout, hshape, fun w hw => nomatch hw⟩
  · exact Or.inl ho

theorem presence_recordValue
    (h : recordValue P tolerate d s v t = .ok t') (s' : Spec) :
    t'.presence s' = t.presence s' := by
  rcases recordValue_cases h with ⟨-, rfl⟩ | ⟨-, -, ⟨x, w, -, -, rfl⟩ | ⟨-, -, rfl⟩ | ⟨-, rfl⟩⟩
    <;> rfl

/-- **The loop** records values of the actual arguments of its dummies. -/
theorem scanDummies_possible :
    ∀ {ds : List (Dummy × Spec)} {args : List Actual} {t t' : Table P},
      scanDummies P tolerate code kw ds args t = .ok t' → o ∈ t'.possible s' →
      o ∈ t.possible s' ∨ ∃ j d, ds[j]? = some (d, s') ∧ d.out = false ∧ d.shape = false ∧
        ∀ w, o = some w → ∃ x, loopActual kw args j d.name = some (.literal x) ∧
          constEval P tolerate x = .ok (some w) := by
  intro ds
  induction ds with
  | nil =>
    intro args t t' h ho
    obtain rfl := Except.ok.inj h
    exact Or.inl ho
  | cons q ds ih =>
    obtain ⟨d₀, s₀⟩ := q
    -- what the rest of the loop records, it records of the later dummies
    intro args t t' h ho
    rcases args with _ | ⟨⟨k, e⟩, args⟩
    · rw [scanDummies] at h
      split_ifs at h
      rcases ih h ho with ho | ⟨j, d, hj, hout, hshape, hw⟩
      · exact Or.inl ho
      · exact Or.inr ⟨j + 1, d, hj, hout, hshape, hw⟩
    · rcases k with _ | k
      · rw [scanDummies] at h
        obtain ⟨t₁, h₁, h⟩ := ok_of_bind h
        rcases ih h ho with ho | ⟨j, d, hj, hout, hshape, hw⟩
        · rcases mem_recordValue h₁ ho with ho | ⟨rfl, hout, hshape, hw⟩
          · rw [possible_recordPresence] at ho
            exact Or.inl ho
          · exact Or.inr ⟨0, d₀, rfl, hout, hshape, hw⟩
        · exact Or.inr ⟨j + 1, d, hj, hout, hshape, hw⟩
      · rw [scanDummies] at h
        split_ifs at h
        obtain ⟨t₁, h₁, h⟩ := ok_of_bind h
        have hloop : ∀ j name, loopActual kw ((some k, e) :: args) j name = kw name := by
          intro j name
          cases j <;> rfl
        simp only [hloop] at ih ⊢
        rcases ih h ho with ho | ⟨j, d, hj, hout, hshape, hw⟩
        · rcases mem_recordValue h₁ ho with ho | ⟨rfl, hout, hshape, hw⟩
          · rw [possible_recordPresence] at ho
            exact Or.inl ho
          · exact Or.inr ⟨0, d₀, rfl, hout, hshape, hw⟩
        · have hw' : ∀ w, o = some w → ∃ x, kw d.name = some (.literal x) ∧
              constEval P tolerate x = .ok (some w) := by
            simpa only [hloop] using hw
          exact Or.inr ⟨j + 1, d, hj, hout, hshape, hw'⟩

/-- **The loop** records the presence of its optional dummies. -/
theorem scanDummies_presence
    {b : Bool} :
    ∀ {ds : List (Dummy × Spec)} {args : List Actual} {t t' : Table P},
      scanDummies P tolerate code kw ds args t = .ok t' → b ∈ t'.presence s' →
      b ∈ t.presence s' ∨ ∃ d, (d, s') ∈ ds ∧ d.optional = true := by
  intro ds
  induction ds with
  | nil =>
    intro args t t' h hb
    obtain rfl := Except.ok.inj h
    exact Or.inl hb
  | cons q ds ih =>
    obtain ⟨d₀, s₀⟩ := q
    intro args t t' h hb
    have hlater : (∃ d, (d, s') ∈ ds ∧ d.optional = true) →
        ∃ d, (d, s') ∈ (d₀, s₀) :: ds ∧ d.optional = true := by
      rintro ⟨d, hd, ho⟩
      exact ⟨d, mem_cons_of_mem _ hd, ho⟩
    have hrecord : ∀ {v : Option (Procedures.Expr ConstEval.Expr)} {t₁ : Table P},
        recordValue P tolerate d₀ s₀ v (recordPresence code d₀ s₀ v t) = .ok t₁ →
        b ∈ t₁.presence s' → b ∈ t.presence s' ∨
          ∃ d, (d, s') ∈ (d₀, s₀) :: ds ∧ d.optional = true := by
      intro v t₁ h₁ hb
      rw [presence_recordValue h₁] at hb
      rcases mem_recordPresence hb with hb | ⟨rfl, ho⟩
      · exact Or.inl hb
      · exact Or.inr ⟨d₀, mem_cons_self .., ho⟩
    rcases args with _ | ⟨⟨k, e⟩, args⟩
    · rw [scanDummies] at h
      split_ifs at h with ho
      rcases ih h hb with hb | hd
      · unfold Table.addPresence at hb
        by_cases hs : s' = s₀
        · subst hs
          exact Or.inr ⟨d₀, mem_cons_self .., ho⟩
        · simp only [hs, if_false] at hb
          exact Or.inl hb
      · exact Or.inr (hlater hd)
    · rcases k with _ | k
      · rw [scanDummies] at h
        obtain ⟨t₁, h₁, h⟩ := ok_of_bind h
        rcases ih h hb with hb | hd
        · exact hrecord h₁ hb
        · exact Or.inr (hlater hd)
      · rw [scanDummies] at h
        split_ifs at h
        obtain ⟨t₁, h₁, h⟩ := ok_of_bind h
        rcases ih h hb with hb | hd
        · exact hrecord h₁ hb
        · exact Or.inr (hlater hd)

end ArgumentConstants
