/-
# Programs with procedures

What the interprocedural passes of `ast_desugaring/optimizations.py` walk over:
expressions, statements and calls, with the names resolved by the alias table.
A literal is of any type `L`.
-/
import Mathlib.Data.List.Basic
import Mathlib.Logic.Relation

namespace Procedures

/-! ## Names -/

/-- A fully qualified name: `types.SPEC`. -/
abbrev Spec := List String

/-- What the alias table has for a name. -/
inductive Target where
  | entity (s : Spec)
  -- an entity that is a procedure: a dummy procedure or an `EXTERNAL` name
  | external (s : Spec)
  | function (s : Spec)
  | subroutine (s : Spec)
  -- a generic interface
  | generic
  -- a procedure declared in an interface block
  | interfaceBody (s : Spec)
  | other
  deriving DecidableEq

/-- An occurrence of a name; `none` is one the table does not know. -/
structure Name where
  string : String
  target : Option Target
  deriving DecidableEq

/-! ## Expressions -/

mutual

/-- An expression.  `partRef` is an element or a section (or a function reference that was
parsed as one), `component` a `Data_Ref`, `operation` any operator, constructor or intrinsic
function other than `PRESENT`. -/
inductive Expr (L : Type) where
  | literal (lit : L)
  | name (n : Name)
  | partRef (n : Name) (subscripts : Args L)
  | component (base : Expr L) (field : String) (subscripts : Args L)
  | functionRef (fn : Callee L) (args : Args L)
  | present (n : Name)
  | operation (op : String) (args : Args L)

/-- What a call names: an intrinsic, a procedure, or a binding of an object. -/
inductive Callee (L : Type) where
  | intrinsic (op : String)
  | name (n : Name)
  | bound (base : Expr L) (binding : String)

/-- Actual arguments; those with a keyword come after the others. -/
inductive Args (L : Type) where
  | nil
  | cons (keyword : Option String) (e : Expr L) (rest : Args L)

end

variable {L : Type}

/-- Whether a name is that of a variable. -/
def Name.isVariable : Name → Bool
  | ⟨_, some (.entity _)⟩ => true
  | _ => false

/-- The arguments as a list. -/
def Args.toList : Args L → List (Option String × Expr L)
  | .nil => []
  | .cons keyword e rest => (keyword, e) :: rest.toList

/-- A call: what it names and its arguments; `walked` are the nodes `Function_Reference` and
`Call_Stmt`, the others were parsed as `Part_Ref`. -/
structure Call (L : Type) where
  fn : Callee L
  args : Args L
  walked : Bool

mutual

/-- The function references of an expression, the inner ones first. -/
def Expr.calls : Expr L → List (Call L)
  | .literal _ => []
  | .name _ => []
  | .partRef n subscripts => 
    subscripts.calls ++ if n.isVariable then [] else [⟨.name n, subscripts, false⟩]
  | .component base _ subscripts => base.calls ++ subscripts.calls
  | .functionRef fn args => fn.calls ++ (args.calls ++ [⟨fn, args, true⟩])
  | .present _ => []
  | .operation _ args => args.calls

/-- Those of what a call names. -/
def Callee.calls : Callee L → List (Call L)
  | .intrinsic _ => []
  | .name _ => []
  | .bound base _ => base.calls

/-- Those of the arguments. -/
def Args.calls : Args L → List (Call L)
  | .nil => []
  | .cons _ e rest => e.calls ++ rest.calls

end

/-- The variable a designator starts from. -/
def Expr.base : Expr L → Option Name
  | .name n => some n
  | .partRef n _ => some n
  | .component base _ _ => base.base
  | _ => none

/-- The entity a designator starts from. -/
def Expr.root (e : Expr L) : Option Spec :=
  match e.base with
  | some ⟨_, some (.entity s)⟩ => some s
  | _ => none

/-! ## Statements -/

/-- The statements other than an assignment that define a variable. -/
inductive Form where
  | doVariable | read | allocate | deallocate | nullify | status
  deriving DecidableEq

/-- An executable statement; a block is a sequence of them. -/
inductive Stmt (L : Type) where
  | skip
  | seq (s t : Stmt L)
  | assign (lhs rhs : Expr L)
  | pointerAssign (lhs rhs : Expr L)
  | call (fn : Callee L) (args : Args L)
  | define (form : Form) (target : Expr L)
  | evaluate (e : Expr L)
  | ifThenElse (cond : Expr L) (s t : Stmt L)
  | doLoop (var : Expr L) (bounds : Expr L) (body : Stmt L)
  | doWhile (cond : Expr L) (body : Stmt L)

/-- `walk(ast, Assignment_Stmt)`: the left-hand sides. -/
def Stmt.assignments : Stmt L → List (Expr L)
  | .seq s t => s.assignments ++ t.assignments
  | .assign lhs _ => [lhs]
  | .ifThenElse _ s t => s.assignments ++ t.assignments
  | .doLoop _ _ body => body.assignments
  | .doWhile _ body => body.assignments
  | _ => []

/-- All calls below a statement. -/
def Stmt.calls : Stmt L → List (Call L)
  | .skip => []
  | .seq s t => s.calls ++ t.calls
  | .assign lhs rhs => lhs.calls ++ rhs.calls
  | .pointerAssign lhs rhs => lhs.calls ++ rhs.calls
  | .call fn args => fn.calls ++ (args.calls ++ [⟨fn, args, true⟩])
  | .define _ target => target.calls
  | .evaluate e => e.calls
  | .ifThenElse cond s t => cond.calls ++ (s.calls ++ t.calls)
  | .doLoop var bounds body => var.calls ++ (bounds.calls ++ body.calls)
  | .doWhile cond body => cond.calls ++ body.calls

/-! ## Procedures -/

/-- A dummy argument: its name, the entity the table gives for it, and what its declaration
says (`types.TYPE_SPEC`). -/
structure Dummy where
  name : String
  spec : Option Spec
  optional : Bool
  inp : Bool
  out : Bool
  shape : Bool
  deriving DecidableEq

/-- A subprogram that has a body. -/
structure Procedure (L : Type) where
  spec : Spec
  dummies : List Dummy
  body : Stmt L

/-- The executable side of a program: its procedures, the main program's statements, the
variables declared in modules, and whether an actual argument is a `POINTER`, an `ALLOCATABLE` or
`NULL()`, which may be passed as absent. -/
structure Code (L : Type) where
  procedures : List (Procedure L)
  main : Stmt L
  moduleVariables : List Spec
  nullable : Expr L → Bool

/-- All statements of the program. -/
def Code.bodies (code : Code L) : List (Stmt L) :=
  code.main :: code.procedures.map Procedure.body

/-- `walk(ast, Assignment_Stmt)` over the program. -/
def Code.assignments (code : Code L) : List (Expr L) :=
  code.bodies.flatMap Stmt.assignments

/-- All calls of the program. -/
def Code.calls (code : Code L) : List (Call L) :=
  code.bodies.flatMap Stmt.calls

end Procedures

/-
# Executions

A run of a program is a sequence of steps of a machine with a stack of frames.
Values of expressions other than literals and variables are arbitrary, and so is
which branch is taken and how often a loop runs, so the runs of the machine
include every execution of the program.
-/

namespace Procedures

variable {L V : Type}

/-! ## States -/

/-- A variable: of a module, or of one activation of a procedure. -/
inductive Loc where
  | global (s : Spec)
  | local (frame : ℕ) (s : Spec)
  deriving DecidableEq

/-- What a dummy argument is associated with. -/
inductive Binding (V : Type) where
  | absent
  | object (l : Loc)
  | value (v : V)

/-- What a frame still has to do. -/
inductive Item (L : Type) where
  | run (s : Stmt L)
  -- a call statement, or a function reference, which need not be evaluated
  | invoke (c : Call L) (optional : Bool)
  -- `plain` for an assignment statement
  | define (plain : Bool) (target : Expr L)
  | associate (lhs rhs : Expr L)

/-- An activation of a procedure; `none` is the main program. -/
structure Frame (L V : Type) where
  id : ℕ
  procedure : Option Spec
  binding : Spec → Option (Binding V)
  todo : List (Item L)

/-- A state: the frames, the innermost first, the value of every variable, and the variables
that pointers have been associated with. -/
structure State (L V : Type) where
  stack : List (Frame L V)
  store : Loc → V
  exposed : Loc → Prop
  next : ℕ

/-! ## Variables and arguments -/

/-- The variable or dummy an entity is in a frame. -/
def Frame.locate (code : Code L) (fr : Frame L V) (s : Spec) : Binding V :=
  if s ∈ code.moduleVariables then .object (.global s)
  else (fr.binding s).getD (.object (.local fr.id s))

/-- The variables a designator may be part of: its own, or one that a pointer leads to. -/
def Reaches (code : Code L) (st : State L V) (fr : Frame L V) (e : Expr L) (l : Loc) : Prop :=
  ∃ s l', e.root = some s ∧ fr.locate code s = .object l' ∧ (l = l' ∨ st.exposed l)

/-- What an actual argument may pass. -/
inductive Passes (code : Code L) (lit : L → V) (st : State L V) (fr : Frame L V) :
    Expr L → Binding V → Prop
  | literal (x : L) : Passes code lit st fr (.literal x) (.value (lit x))
  | object {e : Expr L} {l : Loc} (h : Reaches code st fr e l) :
      Passes code lit st fr e (.object l)
  -- a dummy of the caller is passed on as it is
  | forwarded {n : Name} {s : Spec} {x : Binding V} (hs : (Expr.name n : Expr L).root = some s)
      (h : fr.locate code s = x) (hx : ∀ l, x ≠ .object l) :
      Passes code lit st fr (.name n) x
  -- an expression that is neither a literal nor a variable
  | computed {e : Expr L} {v : V} (hlit : ∀ x, e ≠ .literal x) (hname : ∀ n, e ≠ .name n) :
      Passes code lit st fr e (.value v)
  | null {e : Expr L} (h : code.nullable e) : Passes code lit st fr e .absent

/-- The actual argument of dummy number `i`, by its position or by its name. -/
def actualOf (args : List (Option String × Expr L)) (i : ℕ) (name : String) : Option (Expr L) :=
  match args[i]? with
  | some (none, e) => some e
  | _ => (args.find? fun a => a.1 = some name).map Prod.snd

/-- What a procedure knows of entities that are not its own: its host's. -/
def Inherited (st : State L V) (s : Spec) (x : Option (Binding V)) : Prop :=
  x = none ∨ ∃ fr ∈ st.stack, x = fr.binding s

/-- An entity that is an optional dummy. -/
def Code.isOptional (code : Code L) (s : Spec) : Bool :=
  code.procedures.any fun q => q.dummies.any fun d => d.spec = some s ∧ d.optional

/-- Argument association with the dummies of a procedure; only an optional one may be absent. -/
structure Associated (code : Code L) (lit : L → V) (st : State L V) (fr : Frame L V)
    (q : Procedure L) (args : List (Option String × Expr L))
    (binding : Spec → Option (Binding V)) : Prop where
  dummy : ∀ i d s, q.dummies[i]? = some d → d.spec = some s →
    match actualOf args i d.name with
    | none => binding s = some .absent ∧ d.optional
    | some e => ∃ x, Passes code lit st fr e x ∧ binding s = some x ∧ (x = .absent → d.optional)
  host : ∀ s, (∀ d ∈ q.dummies, d.spec ≠ some s) → Inherited st s (binding s)

/-- What a call hands over: its arguments, and the object of a binding. -/
def Call.operands (c : Call L) : List (Option String × Expr L) :=
  match c.fn with
  | .bound base _ => (none, base) :: c.args.toList
  | _ => c.args.toList

theorem Call.args_subset_operands (c : Call L) : c.args.toList ⊆ c.operands := by
  unfold Call.operands
  split
  · exact List.subset_cons_self ..
  · exact List.Subset.refl _

/-- Association by a call whose procedure the text does not tell: in some order. -/
def AssociatedSomehow (code : Code L) (lit : L → V) (st : State L V) (fr : Frame L V)
    (operands : List (Option String × Expr L)) (binding : Spec → Option (Binding V)) : Prop :=
  ∀ s, Inherited st s (binding s) ∨ (binding s = some .absent ∧ code.isOptional s) ∨
    (∃ v, binding s = some (.value v)) ∨ ∃ a ∈ operands, ∃ x, Passes code lit st fr a.2 x ∧
      binding s = some x ∧ (x = .absent → code.isOptional s)

/-- The procedure a call names, when it names one. -/
def Callee.procedure? : Callee L → Option Spec
  | .name ⟨_, some (.function s)⟩ => some s
  | .name ⟨_, some (.subroutine s)⟩ => some s
  | _ => none

/-! ## Steps -/

/-- The function references of an expression, as items. -/
def evaluations (calls : List (Call L)) : List (Item L) := calls.map (.invoke · true)

/-- What a statement does first. -/
inductive Unfolds : Stmt L → List (Item L) → Prop
  | skip : Unfolds .skip []
  | seq (s t : Stmt L) : Unfolds (.seq s t) [.run s, .run t]
  | assign (lhs rhs : Expr L) :
      Unfolds (.assign lhs rhs) (evaluations (lhs.calls ++ rhs.calls) ++ [.define true lhs])
  | pointerAssign (lhs rhs : Expr L) :
      Unfolds (.pointerAssign lhs rhs)
        (evaluations (lhs.calls ++ rhs.calls) ++ [.associate lhs rhs])
  | call (fn : Callee L) (args : Args L) :
      Unfolds (.call fn args)
        (evaluations (fn.calls ++ args.calls) ++ [.invoke ⟨fn, args, true⟩ false])
  | define (form : Form) (target : Expr L) :
      Unfolds (.define form target) (evaluations target.calls ++ [.define false target])
  | evaluate (e : Expr L) : Unfolds (.evaluate e) (evaluations e.calls)
  | thenBranch (cond : Expr L) (s t : Stmt L) :
      Unfolds (.ifThenElse cond s t) (evaluations cond.calls ++ [.run s])
  | elseBranch (cond : Expr L) (s t : Stmt L) :
      Unfolds (.ifThenElse cond s t) (evaluations cond.calls ++ [.run t])
  | doExit (var bounds : Expr L) (body : Stmt L) :
      Unfolds (.doLoop var bounds body)
        (evaluations (var.calls ++ bounds.calls) ++ [.define false var])
  | doRound (var bounds : Expr L) (body : Stmt L) :
      Unfolds (.doLoop var bounds body)
        (evaluations (var.calls ++ bounds.calls) ++
          [.define false var, .run body, .run (.doLoop var bounds body)])
  | whileExit (cond : Expr L) (body : Stmt L) :
      Unfolds (.doWhile cond body) (evaluations cond.calls)
  | whileRound (cond : Expr L) (body : Stmt L) :
      Unfolds (.doWhile cond body)
        (evaluations cond.calls ++ [.run body, .run (.doWhile cond body)])

/-- The state with another innermost frame. -/
def State.withTop (st : State L V) (fr : Frame L V) (rest : List (Frame L V)) : State L V :=
  { st with stack := fr :: rest }

/-- The state with an activation on top. -/
def State.push (st : State L V) (q : Procedure L) (binding : Spec → Option (Binding V))
    (stack : List (Frame L V)) : State L V :=
  { st with
    stack := ⟨st.next, some q.spec, binding, [.run q.body]⟩ :: stack
    next := st.next + 1 }

/-- One step; `fr` is the innermost frame and `k` what it does later. -/
inductive Step (code : Code L) (lit : L → V) : State L V → State L V → Prop
  | run {st : State L V} {fr : Frame L V} {rest : List (Frame L V)} {s : Stmt L}
      {k items : List (Item L)} (hst : st.stack = { fr with todo := .run s :: k } :: rest)
      (h : Unfolds s items) :
      Step code lit st (st.withTop { fr with todo := items ++ k } rest)
  | notEvaluated {st : State L V} {fr : Frame L V} {rest : List (Frame L V)} {c : Call L}
      {k : List (Item L)} (hst : st.stack = { fr with todo := .invoke c true :: k } :: rest) :
      Step code lit st (st.withTop { fr with todo := k } rest)
  -- a procedure of the program
  | call {st : State L V} {fr : Frame L V} {rest : List (Frame L V)} {c : Call L} {opt : Bool}
      {k : List (Item L)} {q : Procedure L} {binding : Spec → Option (Binding V)}
      (hst : st.stack = { fr with todo := .invoke c opt :: k } :: rest)
      (hq : q ∈ code.procedures) (hfn : c.fn.procedure? = some q.spec)
      (h : Associated code lit st { fr with todo := .invoke c opt :: k } q c.args.toList binding) :
      Step code lit st (st.push q binding ({ fr with todo := k } :: rest))
  -- a binding, a generic or procedure dummy, or an external procedure that calls back
  | dispatch {st : State L V} {fr : Frame L V} {rest : List (Frame L V)} {c : Call L} {opt : Bool}
      {k : List (Item L)} {q : Procedure L} {binding : Spec → Option (Binding V)}
      (hst : st.stack = { fr with todo := .invoke c opt :: k } :: rest)
      (hq : q ∈ code.procedures) (hfn : c.fn.procedure? = none)
      (h : AssociatedSomehow code lit st { fr with todo := .invoke c opt ::
        k } c.operands binding) :
      Step code lit st (st.push q binding ({ fr with todo := k } :: rest))
  -- a procedure without a body: it may define its arguments and keep pointers to them
  | external {st : State L V} {fr : Frame L V} {rest : List (Frame L V)} {c : Call L} {opt : Bool}
      {k : List (Item L)} {store : Loc → V} {exposed : Loc → Prop}
      (hst : st.stack = { fr with todo := .invoke c opt :: k } :: rest)
      (hfn : ∀ q ∈ code.procedures, c.fn.procedure? ≠ some q.spec)
      (hstore : ∀ l, store l ≠ st.store l → ∃ a ∈ c.operands,
        Reaches code st { fr with todo := .invoke c opt :: k } a.2 l)
      (hexposed : ∀ l, exposed l → st.exposed l ∨ ∃ a ∈ c.operands,
        Reaches code st { fr with todo := .invoke c opt :: k } a.2 l) :
      Step code lit st { st with stack := { fr with todo := k } :: rest, store, exposed }
  | define {st : State L V} {fr : Frame L V} {rest : List (Frame L V)} {plain : Bool}
      {target : Expr L} {k : List (Item L)} {l : Loc} {store : Loc → V}
      (hst : st.stack = { fr with todo := .define plain target :: k } :: rest)
      (hl : Reaches code st { fr with todo := .define plain target :: k } target l)
      (hstore : ∀ l', l' ≠ l → store l' = st.store l') :
      Step code lit st { st with stack := { fr with todo := k } :: rest, store }
  | associate {st : State L V} {fr : Frame L V} {rest : List (Frame L V)} {lhs rhs : Expr L}
      {k : List (Item L)} {l : Loc} {store : Loc → V} {exposed : Loc → Prop}
      (hst : st.stack = { fr with todo := .associate lhs rhs :: k } :: rest)
      (hl : Reaches code st { fr with todo := .associate lhs rhs :: k } lhs l)
      (hstore : ∀ l', l' ≠ l → store l' = st.store l')
      (hexposed : ∀ l', exposed l' → st.exposed l' ∨
        Reaches code st { fr with todo := .associate lhs rhs :: k } rhs l') :
      Step code lit st { st with stack := { fr with todo := k } :: rest, store, exposed }
  | finish {st : State L V} {fr : Frame L V} {rest : List (Frame L V)}
      (hst : st.stack = { fr with todo := [] } :: rest) :
      Step code lit st { st with stack := rest }

/-- The program before its first statement. -/
structure Initial (code : Code L) (st : State L V) : Prop where
  stack_eq : st.stack = [⟨0, none, fun _ => none, [.run code.main]⟩]
  exposed_eq : ∀ l, ¬st.exposed l

/-- The item a state is about to process. -/
def State.current (st : State L V) : Option (Item L) := st.stack.head?.bind fun fr => fr.todo.head?

/-- A step whose item meets a condition. -/
def StepMeeting (code : Code L) (lit : L → V) (good : Item L → Prop) (st st' : State L V) : Prop :=
  Step code lit st st' ∧ ∀ i, st.current = some i → good i

/-- A run whose steps all meet a condition. -/
def RunMeeting (code : Code L) (lit : L → V) (good : Item L → Prop) :
    State L V → State L V → Prop :=
  Relation.ReflTransGen (StepMeeting code lit good)

end Procedures
