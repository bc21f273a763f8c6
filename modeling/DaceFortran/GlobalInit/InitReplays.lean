/-
# `create_global_initializers`

Each derived type gets a subroutine that assigns the initialisers of its own components, and
`global_init_fn` assigns those of the module variables; a record is initialised by a call.  The
calls of `global_init_fn` stand at the start of the entry points.

A type is defined before a component of another one is of it.
-/
import Mathlib.Data.Fin.Basic
import DaceFortran.Lib.Cells

open List

namespace GlobalInit

/-! ## Declarations -/

/-- A step from an object to a part of it. -/
inductive Step (Name : Type) where
  | element (i : List ℤ)
  | component (x : Name)
deriving DecidableEq

abbrev Path (Name : Type) := List (Step Name)

/-- An initialiser, with the values that it gives to the parts: `named` says that its expression has
a name in it. -/
structure Initializer (Name Value : Type) where
  named : Bool
  value : Path Name → Value

/-- A type of a declaration. -/
inductive Ty (n : ℕ) where
  | intrinsic
  | derived (t : Fin n)
deriving DecidableEq

/-- A component or a variable: `indirect` is a `POINTER` or an `ALLOCATABLE`. -/
structure Declared (Name Value : Type) (n : ℕ) where
  name : Name
  type : Ty n
  shape : Bool
  indirect : Bool
  init : Option (Initializer Name Value)

/-- A derived type with its own components. -/
structure TypeDef (Name Value : Type) (n : ℕ) where
  module : Name
  parent : Option (Fin n)
  comps : List (Declared Name Value n)

/-- The access attribute in a declaration: it is left where the access statements are removed. -/
inductive Access where
  | everywhere
  | readOnly
  | ownModule
deriving DecidableEq

/-- A variable of a module: `PROTECTED` is `readOnly`, `PRIVATE` is `ownModule`. -/
structure Global (Name Value : Type) (n : ℕ) where
  module : Name
  const : Bool
  access : Access
  decl : Declared Name Value n

structure Program (Name Value : Type) (n : ℕ) where
  types : Fin n → TypeDef Name Value n
  vars : List (Global Name Value n)

variable {Name Value : Type} {n : ℕ}

/-! ## The generated subroutines -/

/-- A statement of an initialiser subroutine, for the declaration of its target. -/
inductive Statement (Name Value : Type) (n : ℕ) where
  | call (typeInit : Fin n) (target : Declared Name Value n)
  | assign (target : Declared Name Value n) (init : Initializer Name Value)

/-- The statement of `_make_init_fn` for a variable: an array of records gets none. -/
def initStatement (var : Declared Name Value n) : Option (Statement Name Value n) :=
  match var.type with
  | .derived t => if var.shape then none else some (.call t var)
  | .intrinsic => var.init.map (.assign var)

namespace Program

variable (P : Program Name Value n)

/-- The components of a type that its subroutine is made for. -/
def initedComps (t : Fin n) : List (Declared Name Value n) :=
  (P.types t).comps.filter fun c => c.init.isSome

/-- The subroutine of a type. -/
def typeInitBody (t : Fin n) : List (Statement Name Value n) :=
  (P.initedComps t).filterMap initStatement

/-- `global_inited_vars` -/
def globalInitedVars : List (Global Name Value n) :=
  P.vars.filter fun v => !v.const && (v.decl.type != .intrinsic || v.decl.init.isSome)

/-- `global_init_fn`: each statement with its variable. -/
def globalInitBody : List (Global Name Value n × Statement Name Value n) :=
  P.globalInitedVars.filterMap fun v => (initStatement v.decl).map fun s => (v, s)

/-- A statement calls the subroutine of a type. -/
def UsedInit (t : Fin n) : Prop :=
  (∃ u target, .call t target ∈ P.typeInitBody u) ∨
    ∃ v target, (v, .call t target) ∈ P.globalInitBody

/-- The generated program is Fortran: no subroutine that is left uses its own module, no statement
of `global_init_fn` refers to a name of two modules, no initialiser has a name that is not imported
there, and `global_init_fn`, which is in no module, imports no private name and changes no protected
variable. -/
structure Compiles : Prop where
  noSelfUse : ∀ t u target, P.UsedInit t → .call u target ∈ P.typeInitBody t →
    (P.types u).module ≠ (P.types t).module
  apart : ∀ vs ∈ P.globalInitBody, ∀ w ∈ P.globalInitedVars, w.decl.name = vs.1.decl.name →
    w.module = vs.1.module
  closed : ∀ v target init, (v, .assign target init) ∈ P.globalInitBody → init.named = false
  imported : ∀ v ∈ P.globalInitedVars, v.access ≠ .ownModule
  changed : ∀ vs ∈ P.globalInitBody, vs.1.access ≠ .readOnly

end Program

/-! ## Executions -/

/-- The values of the parts of an object, those that are defined. -/
abbrev Object (Name Value : Type) := Path Name → Option Value

/-- The parts of a variable that is not of a derived type. -/
def intrinsicPart (c : Declared Name Value n) : Path Name → Bool
  | [] => c.indirect || !c.shape
  | [.element _] => !c.indirect && c.shape
  | _ => false

/-- `var = init` -/
def assignInit (c : Declared Name Value n) (init : Initializer Name Value) (o : Object Name Value) :
    Object Name Value := fun p => if intrinsicPart c p then some (init.value p) else o p

variable [DecidableEq Name]

namespace Object

/-- A component of an object. -/
def comp (o : Object Name Value) (x : Name) : Object Name Value := fun p => o (.component x :: p)

/-- The object with another component. -/
def setComp (o : Object Name Value) (x : Name) (o' : Object Name Value) : Object Name Value
  | .component y :: p => if y = x then o' p else o (.component y :: p)
  | p => o p

end Object

/-- A statement on its target: the actual argument of a call is to be neither a pointer nor
allocatable. -/
def Statement.run (typeInit : Fin n → Object Name Value → Option (Object Name Value)) :
    Statement Name Value n → Object Name Value → Option (Object Name Value)
  | .call t target, o => if target.indirect then none else typeInit t o
  | .assign target init, o => some (assignInit target init o)

/-- The declaration that a statement is about. -/
def Statement.target : Statement Name Value n → Declared Name Value n
  | .call _ target => target
  | .assign target _ => target

namespace Program

variable (P : Program Name Value n)

/-- A call of the subroutine of a type. -/
def typeInit (t : Fin n) (o : Object Name Value) : Option (Object Name Value) :=
  (P.typeInitBody t).foldlM (fun o s =>
    (s.run (fun u o => if _h : u < t then typeInit u o else none) (o.comp s.target.name)).map
      (o.setComp s.target.name)) o
termination_by t.val

/-- The variables of all modules. -/
abbrev Store (Name Value : Type) := Name × Name → Object Name Value

/-- A call of `global_init_fn`. -/
def globalInitFn (s : Store Name Value) : Option (Store Name Value) :=
  P.globalInitBody.foldlM (fun s vs =>
    (vs.2.run P.typeInit (s (vs.1.module, vs.1.decl.name))).map
      (Function.update s (vs.1.module, vs.1.decl.name))) s

/-! ## What Fortran initialises -/

/-- The components of a type, the inherited ones first. -/
def components (t : Fin n) : List (Declared Name Value n) :=
  (match (P.types t).parent with
    | some u => if _h : u < t then components u else []
    | none => []) ++ (P.types t).comps
termination_by t.val

/-- The path inside of an element of an array, or of the scalar. -/
def inElement (shape : Bool) (p : Path Name) : Option (Path Name) :=
  if shape then
    match p with
    | .element _ :: q => some q
    | _ => none
  else some p

/-- The parts that have a value of their own, of an object of a derived type. -/
def isPart (t : Fin n) (p : Path Name) : Bool :=
  match p with
  | .component x :: q =>
    match (P.components t).find? fun c => c.name = x with
    | some c =>
      match c.type with
      | .intrinsic => intrinsicPart c q
      | .derived u =>
        if c.indirect then q.isEmpty
        else if _h : u < t then (inElement c.shape q).any fun r => isPart u r else false
    | none => false
  | _ => false
termination_by t.val

/-- The parts of what is declared. -/
def isDeclaredPart (c : Declared Name Value n) (p : Path Name) : Bool :=
  match c.type with
  | .intrinsic => intrinsicPart c p
  | .derived u => if c.indirect then p.isEmpty else (inElement c.shape p).any fun r => P.isPart u r

/-- The default initialisation of a derived type: what a component's own initialiser gives, else
what the type of the component does. -/
def typeDefault (t : Fin n) (p : Path Name) : Option Value :=
  match p with
  | .component x :: q =>
    match (P.components t).find? fun c => c.name = x with
    | some c =>
      match c.init with
      | some init => if P.isDeclaredPart c q then some (init.value q) else none
      | none =>
        match c.type with
        | .intrinsic => none
        | .derived u =>
          if c.indirect then none
          else if _h : u < t then (inElement c.shape q).bind fun r => typeDefault u r else none
    | none => none
  | _ => none
termination_by t.val

/-- **The initialisation of a variable.** -/
def fortranInit (c : Declared Name Value n) (p : Path Name) : Option Value :=
  match c.init with
  | some init => if P.isDeclaredPart c p then some (init.value p) else none
  | none =>
    match c.type with
    | .intrinsic => none
    | .derived u => if c.indirect then none else (inElement c.shape p).bind fun r =>
        P.typeDefault u r

/-- The store with every variable that is not a named constant initialised, and nothing else
changed. -/
def initialised (s : Store Name Value) : Store Name Value := fun mx p =>
  match P.vars.find? fun v => (v.module, v.decl.name) = mx ∧ v.const = false with
  | some v => (P.fortranInit v.decl p).or (s mx p)
  | none => s mx p

/-- The stores in which the entry points start, for what is executed between one start and the
next. -/
def fortranStores (s : Store Name Value) : List (Store Name Value → Store Name Value) →
    List (Store Name Value)
  | [] => []
  | segment :: segments => s :: fortranStores (segment s) segments

/-- The same with the call of `global_init_fn` at each start. -/
def generatedStores (s : Store Name Value) :
    List (Store Name Value → Store Name Value) → Option (List (Store Name Value))
  | [] => some []
  | segment :: segments => do
    let s' ← P.globalInitFn s
    let stores ← generatedStores (segment s') segments
    some (s' :: stores)

/-- **The generated calls reproduce Fortran's initialisation**: one call initialises all variables
and changes nothing else, and in a run no entry point starts with other values. -/
structure Reproduces (before : Store Name Value)
    (segments : List (Store Name Value → Store Name Value)) : Prop where
  compiles : P.Compiles
  once : ∀ s, P.globalInitFn s = some (P.initialised s)
  kept : P.generatedStores before segments = some (fortranStores (P.initialised before) segments)

/-- The declarations are Fortran's: a type extends an earlier one, direct components are of earlier
types, components have distinct names, and so have the variables of a module. -/
structure WellFormed : Prop where
  direct : ∀ t, ∀ c ∈ (P.types t).comps, ∀ u, c.type = .derived u → c.indirect = false → u < t
  extended : ∀ t u, (P.types t).parent = some u → u < t
  names : ∀ t, ((P.components t).map Declared.name).Nodup
  vars : (P.vars.map fun v => (v.module, v.decl.name)).Nodup

end Program

end GlobalInit

/-
# What the generated subroutines replay

The subroutine of a type assigns the components of the type that have an initialiser there, and
calls the subroutine of the type of such a component where this is one record.
-/

namespace GlobalInit

variable {Name Value : Type} [DecidableEq Name] {n : ℕ}

/-! ## Objects -/

/-- An object with the values that are given, where they are. -/
def overlay (w o : Object Name Value) : Object Name Value := fun p => (w p).or (o p)

/-- The components of an object are cells. -/
def objectCells (Name Value : Type) [DecidableEq Name] :
    Cells (Object Name Value) Name (Object Name Value) (Object Name Value) where
  get := Object.comp
  set := Object.setComp
  rest := fun o p => match p with
    | .component _ :: _ => none
    | p => o p
  get_set_self := by
    intro o x o'
    funext p
    exact if_pos rfl
  get_set_of_ne := by
    intro o x o' y h
    funext p
    exact if_neg h
  rest_set := by
    intro o x o'
    funext p
    match p with
    | [] => rfl
    | .element _ :: _ => rfl
    | .component _ :: _ => rfl
  ext := by
    intro o o' hget hrest
    funext p
    match p with
    | [] => exact congrFun hrest []
    | .element i :: p => exact congrFun hrest (.element i :: p)
    | .component x :: p => exact congrFun (congrFun hget x) p

/-- The variables of a store are cells. -/
def storeCells (Name Value : Type) [DecidableEq Name] :
    Cells (Program.Store Name Value) (Name × Name) (Object Name Value) Unit where
  get := fun s => s
  set := fun s => Function.update s
  rest := fun _ => ()
  get_set_self := fun s k c => Function.update_self k c s
  get_set_of_ne := fun s _ c _ h => Function.update_of_ne h c s
  rest_set := fun _ _ _ => rfl
  ext := fun _ _ h _ => h

variable {w : Object Name Value} {c : Declared Name Value n}

omit [DecidableEq Name] in
/-- Nothing is given where every object stays as it is. -/
theorem overlay_eq_self_iff : (∀ o, overlay w o = o) ↔ ∀ p, w p = none := by
  constructor
  · intro h p
    have hp := congrFun (h fun _ => none) p
    cases hw : w p with
    | none => rfl
    | some v => simp [overlay, hw] at hp
  · intro h o
    funext p
    rw [overlay, h p, Option.none_or]

omit [DecidableEq Name] in
theorem assignInit_eq_overlay_iff {init : Initializer Name Value} :
    (∀ o, assignInit c init o = overlay w o) ↔
      ∀ p, w p = if intrinsicPart c p then some (init.value p) else none := by
  constructor
  · intro h p
    have hp := congrFun (h fun _ => none) p
    simp only [assignInit, overlay, Option.or_none] at hp
    exact hp.symm
  · intro h o
    funext p
    rw [assignInit, overlay, h p]
    split
    · rfl
    · rfl

/-! ## Declarations -/

/-- What becomes of a component: it has a statement if it has an initialiser. -/
def initComponent (typeInit : Fin n → Object Name Value → Option (Object Name Value))
    (c : Declared Name Value n)
    (o : Object Name Value) : Option (Object Name Value) :=
  match c.init with
  | none => some o
  | some _ => match initStatement c with
    | none => some o
    | some s => s.run typeInit o

/-- What becomes of a variable: it has a statement if it has an initialiser or is of a derived
type. -/
def initVariable (typeInit : Fin n → Object Name Value → Option (Object Name Value))
    (v : Global Name Value n)
    (o : Object Name Value) : Option (Object Name Value) :=
  if v.const then some o
  else match initStatement v.decl with
    | none => some o
    | some s => s.run typeInit o

omit [DecidableEq Name] in
theorem target_of_initStatement {s : Statement Name Value n}
    (h : initStatement c = some s) : s.target = c := by
  unfold initStatement at h
  split at h
  · split at h
    · exact absurd h (by simp)
    · obtain rfl := Option.some.inj h
      rfl
  · obtain ⟨init, -, rfl⟩ := Option.map_eq_some_iff.1 h
    rfl

/-- A fold over what a list gives is one over the list. -/
theorem foldlM_filterMap {α β σ : Type} {f : α → Option β} {g : σ → β → Option σ}
    {h : σ → α → Option σ}
    {l : List α} (hsome : ∀ s, ∀ a ∈ l, ∀ b, f a = some b → g s b = h s a)
    (hnone : ∀ s, ∀ a ∈ l, f a = none → h s a = some s) (s : σ) :
    (l.filterMap f).foldlM g s = l.foldlM h s := by
  induction l generalizing s with
  | nil => rfl
  | cons a l ih =>
    have ih' := ih (fun s b hb => hsome s b (mem_cons_of_mem a hb)) fun s b hb =>
      hnone s b (mem_cons_of_mem a hb)
    rw [foldlM_cons]
    cases hf : f a with
    | none => rw [filterMap_cons_none hf, hnone s a mem_cons_self hf, ih']; rfl
    | some b =>
      rw [filterMap_cons_some hf, foldlM_cons, hsome s a mem_cons_self b hf]
      exact congrArg _ (funext fun s => ih' s)

namespace Program

variable (P : Program Name Value n)

/-- The calls in the subroutine of a type: of types that are defined before. -/
def typeInitBefore (t u : Fin n) (o : Object Name Value) : Option (Object Name Value) :=
  if u < t then P.typeInit u o else none

/-- The subroutine of a type, component by component. -/
theorem typeInit_eq (t : Fin n) (o : Object Name Value) : P.typeInit t o =
    (P.types t).comps.foldlM (fun o c => (initComponent (P.typeInitBefore t) c (o.comp c.name)).map
      (o.setComp c.name)) o := by
  have hkeep : ∀ (o : Object Name Value) (x : Name), (some (o.comp x)).map (o.setComp x) = some o :=
    fun o x =>
    congrArg some ((objectCells Name Value).set_get o x)
  rw [typeInit, typeInitBody, initedComps, filterMap_filter]
  refine foldlM_filterMap (fun o c _ s hs => ?_) (fun o c _ hc => ?_) o
  · split at hs
    · rename_i hinit
      obtain ⟨init, hinit⟩ := Option.isSome_iff_exists.1 hinit
      rw [initComponent, hinit, target_of_initStatement hs]
      simp only [hs]
      rfl
    · exact absurd hs (by simp)
  · rw [initComponent]
    split at hc
    · rename_i hinit
      obtain ⟨init, hinit⟩ := Option.isSome_iff_exists.1 hinit
      rw [hinit, hc]
      exact hkeep o c.name
    · rename_i hinit
      rw [Option.not_isSome_iff_eq_none.1 hinit]
      exact hkeep o c.name

/-- `global_init_fn`, variable by variable. -/
theorem globalInitFn_eq (s : Store Name Value) : P.globalInitFn s =
    P.vars.foldlM (fun s v => (initVariable P.typeInit v (s (v.module, v.decl.name))).map
      (Function.update s (v.module, v.decl.name))) s := by
  have hkeep : ∀ (s : Store Name Value) (k : Name × Name), (some (s k)).map (Function.update s k) =
    some s := fun s k =>
    congrArg some ((storeCells Name Value).set_get s k)
  rw [globalInitFn, globalInitBody, globalInitedVars, filterMap_filter]
  refine foldlM_filterMap (fun s v _ vs hvs => ?_) (fun s v _ hv => ?_) s
  · split at hvs
    · rename_i hin
      obtain ⟨stmt, hstmt, rfl⟩ := Option.map_eq_some_iff.1 hvs
      have hconst : v.const = false := by
        rw [Bool.and_eq_true, Bool.not_eq_true'] at hin
        exact hin.1
      rw [initVariable, hconst, if_neg (by simp), hstmt]
    · exact absurd hvs (by simp)
  · rw [initVariable]
    cases hconst : v.const with
    | true => exact hkeep s _
    | false =>
      have hstmt : initStatement v.decl = none := by
        split at hv
        · exact Option.map_eq_none_iff.1 hv
        · rename_i hout
          rw [hconst] at hout
          unfold initStatement
          cases htype : v.decl.type with
          | derived t => simp [htype] at hout
          | intrinsic =>
            cases hinit : v.decl.init with
            | none => rfl
            | some init => simp [hinit] at hout
      rw [hstmt]
      exact hkeep s _

/-! ## Types -/

/-- The subroutine of a type gives these values: there are none but for its own components that have
an initialiser, a record of one type among them is neither a pointer nor allocatable, and has the
values that its type gives. -/
def Replays (t : Fin n) (w : Object Name Value) : Prop :=
  (∀ x ∉ (P.types t).comps.map Declared.name, ∀ q, w.comp x q = none) ∧
    (∀ p, (∀ x q, p ≠ .component x :: q) → w p = none) ∧
      ∀ c ∈ (P.types t).comps,
        match c.init with
        | none => ∀ q, w.comp c.name q = none
        | some init =>
          match c.type with
          | .intrinsic => ∀ q, w.comp c.name q =
              if intrinsicPart c q then some (init.value q) else none
          | .derived u =>
            if c.shape then ∀ q, w.comp c.name q = none
            else c.indirect = false ∧ if _h : u < t then Replays u (w.comp c.name) else False
termination_by t.val

variable {P}

/-- **A subroutine gives the values that it replays**, whatever the object was. -/
theorem typeInit_iff (hnames : ∀ t, ((P.types t).comps.map Declared.name).Nodup) (t : Fin n)
    (w : Object Name Value) :
    (∀ o, P.typeInit t o = some (overlay w o)) ↔ P.Replays t w := by
  induction hk : t.val using Nat.strong_induction_on generalizing t w with
  | _ k ih =>
    subst hk
    have hcells : ∀ o, P.typeInit t o = some (overlay w o) ↔
        (∀ c ∈ (P.types t).comps, initComponent (P.typeInitBefore t) c (o.comp c.name) =
          some (overlay (w.comp c.name) (o.comp c.name))) ∧
        (∀ x ∉ (P.types t).comps.map Declared.name, overlay (w.comp x) (o.comp x) = o.comp x) ∧
          (objectCells Name Value).rest (overlay w o) = (objectCells Name Value).rest o :=
            fun o => by
      rw [typeInit_eq]
      exact (objectCells Name Value).foldlM_eq_some_iff (hnames t)
    -- every object is the component of one
    have hall : ∀ oc : Object Name Value, ∃ o : Object Name Value, ∀ x, o.comp x = oc := fun oc =>
      ⟨fun p => match p with
        | .component _ :: q => oc q
        | _ => none, fun x => rfl⟩
    have hrest : (∀ o, (objectCells Name Value).rest (overlay w o) =
      (objectCells Name Value).rest o) ↔
        ∀ p, (∀ x q, p ≠ .component x :: q) → w p = none := by
      constructor
      · intro h p hp
        have hw := congrFun (h fun _ => none) p
        match p, hp with
        | [], _ => simpa [objectCells, overlay] using hw
        | .element i :: q, _ => simpa [objectCells, overlay] using hw
        | .component x :: q, hp => exact absurd rfl (hp x q)
      · intro h o
        funext p
        match p with
        | [] => simp [objectCells, overlay, h [] (by simp)]
        | .element i :: q => simp [objectCells, overlay, h (.element i :: q) (by simp)]
        | .component x :: q => rfl
    have hcomp : ∀ c ∈ (P.types t).comps,
        (∀ oc, initComponent (P.typeInitBefore t) c oc = some (overlay (w.comp c.name) oc)) ↔
          match c.init with
          | none => ∀ q, w.comp c.name q = none
          | some init =>
            match c.type with
            | .intrinsic => ∀ q, w.comp c.name q =
                if intrinsicPart c q then some (init.value q) else none
            | .derived u =>
              if c.shape then ∀ q, w.comp c.name q = none
              else c.indirect = false ∧
                if _h : u < t then P.Replays u (w.comp c.name) else False := by
      intro c _
      have hself : (∀ oc : Object Name Value, some oc = some (overlay (w.comp c.name) oc)) ↔
          ∀ q, w.comp c.name q = none := by
        rw [← overlay_eq_self_iff]
        exact forall_congr' fun oc =>
          ⟨fun h => (Option.some.inj h).symm, fun h => congrArg some h.symm⟩
      unfold initComponent initStatement
      cases hinit : c.init with
      | none => exact hself
      | some init =>
        cases htype : c.type with
        | intrinsic =>
          simp only [Option.map_some, Statement.run, Option.some.injEq]
          exact assignInit_eq_overlay_iff
        | derived u =>
          simp only
          cases hshape : c.shape with
          | true => simpa using hself
          | false =>
            simp only [Bool.false_eq_true, if_false, Statement.run]
            cases hind : c.indirect with
            | true => simp
            | false =>
              simp only [Bool.false_eq_true, if_false, true_and]
              by_cases hu : u < t
              · rw [dif_pos hu, ← ih u.val hu u (w.comp c.name) rfl]
                exact forall_congr' fun oc => by rw [typeInitBefore, if_pos hu]
              · rw [dif_neg hu, iff_false]
                intro h
                have hnone := h fun _ => none
                rw [typeInitBefore, if_neg hu] at hnone
                exact absurd hnone (by simp)
    rw [Replays, ← hrest]
    constructor
    · intro h
      refine ⟨fun x hx => overlay_eq_self_iff.1 fun oc => ?_,
        fun o => ((hcells o).1 (h o)).2.2, fun c hc =>
        (hcomp c hc).1 fun oc => ?_⟩
      · obtain ⟨o, ho⟩ := hall oc
        have hox := ((hcells o).1 (h o)).2.1 x hx
        rwa [ho x] at hox
      · obtain ⟨o, ho⟩ := hall oc
        have hoc := ((hcells o).1 (h o)).1 c hc
        rwa [ho c.name] at hoc
    · rintro ⟨hothers, hrest', hcs⟩ o
      exact (hcells o).2 ⟨fun c hc => (hcomp c hc).2 (hcs c hc) _,
        fun x hx => overlay_eq_self_iff.2 (hothers x hx) _,
        hrest' o⟩

end Program

end GlobalInit
