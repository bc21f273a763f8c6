/-
# `deconstruct_statement_functions`

A statement function becomes an internal function.  The variables of the scope that its expression
reads are carried over: they are further dummy arguments of the new function and further actual
arguments of every call.  The functions are lifted one after another, and the calls of each one are
rewritten in the whole scope.
-/
import Mathlib.Data.List.Basic
import Mathlib.Data.List.Lookmap

namespace StatementFunctions

/-- An expression: a name, an operation (a literal has no operands), or `f(args)`, a call or an
array element. -/
inductive Expr (Name Op : Type) where
  | var (x : Name)
  | op (o : Op) (args : List (Expr Name Op))
  | ref (f : Name) (args : List (Expr Name Op))

/-- `f(dummies) = body` -/
structure StmtFn (Name Op : Type) where
  name : Name
  dummies : List Name
  body : Expr Name Op

/-- A declared variable: whether it is a named constant, whether its value never changes
(`INTENT(IN)`), the bounds of its dimensions as they are written, and whether they are deferred (an
allocatable or a pointer). -/
structure Decl (Name Op : Type) where
  const : Bool
  fixed : Bool
  deferred : Bool
  dims : List (Option (Expr Name Op) × Option (Expr Name Op))

/-- A place with expressions, the executable part of the scope or an internal procedure, with the
names that are declared there. -/
structure Site (Name Op : Type) where
  locals : List Name
  exprs : List (Expr Name Op)

/-- The program unit with its statement functions in their order. -/
structure Scope (Name Op : Type) where
  /-- It is an internal procedure itself. -/
  internal : Bool
  /-- The variables that are declared here or imported here. -/
  decls : Name → Option (Decl Name Op)
  /-- The names of the host whose values never change. -/
  hostFixed : Name → Bool
  fns : List (StmtFn Name Op)
  sites : List (Site Name Op)

variable {Name Op : Type}

namespace Expr

mutual

/-- `walk(expr, f03.Name)` -/
def names : Expr Name Op → List Name
  | .var x => [x]
  | .op _ args => namesArgs args
  | .ref f args => f :: namesArgs args

def namesArgs : List (Expr Name Op) → List Name
  | [] => []
  | a :: args => a.names ++ namesArgs args

end

mutual

/-- The names before argument lists. -/
def calls : Expr Name Op → List Name
  | .var _ => []
  | .op _ args => callsArgs args
  | .ref f args => f :: callsArgs args

def callsArgs : List (Expr Name Op) → List Name
  | [] => []
  | a :: args => a.calls ++ callsArgs args

end

end Expr

variable [DecidableEq Name]

/-! ## The pass -/

section

variable (locals : List Name) (f : Name) (carryovers : List Name)

mutual

/-- The calls of a function get the carried-over arguments, where the name is the function's.  An
outer call is replaced by a copy of its text, so that the calls inside it are left as they are. -/
def rewriteCalls : Expr Name Op → Expr Name Op
  | .var x => .var x
  | .op o args => .op o (rewriteCallsArgs args)
  | .ref g args =>
    if g = f ∧ g ∉ locals then .ref g (args ++ carryovers.map .var)
      else .ref g (rewriteCallsArgs args)

def rewriteCallsArgs : List (Expr Name Op) → List (Expr Name Op)
  | [] => []
  | a :: args => rewriteCalls a :: rewriteCallsArgs args

end

end

/-- The functions with their carried-over variables, in the order in which they are lifted. -/
abbrev Table (Name : Type) := List (Name × List Name)

/-- The calls of the functions of a table, one function after another. -/
def rewriteAll (locals : List Name) (table : Table Name) (e : Expr Name Op) : Expr Name Op :=
  table.foldl (fun e fc => rewriteCalls locals fc.1 fc.2 e) e

namespace Scope

variable (S : Scope Name Op)

/-- The name of a statement function. -/
def isFn (f : Name) : Bool := S.fns.any fun g => g.name = f

/-- A variable of the scope that is not a named constant. -/
def carried (x : Name) : Bool := !S.isFn x && match S.decls x with
  | some d => !d.const
  | none => false

/-- The names of an expression that are carried over, each of them once. -/
def carryovers (dummies : List Name) (e : Expr Name Op) : List Name :=
  e.names.foldl (fun cs x => if x ∉ dummies ∧ S.carried x ∧ x ∉ cs then cs ++ [x] else cs) []

/-- The loop over the functions. -/
def liftLoop : Table Name → List (StmtFn Name Op) → Table Name
  | done, [] => done
  | done, f :: fs => liftLoop
      (done ++ [(f.name, S.carryovers f.dummies (rewriteAll [] done f.body))]) fs

/-- The functions with their carried-over variables. -/
def table : Table Name := S.liftLoop [] S.fns

end Scope

/-- A new internal function: its dummy arguments, then the carried-over variables as dummy
arguments. -/
structure Lifted (Name Op : Type) where
  name : Name
  dummies : List Name
  carry : List Name
  body : Expr Name Op

namespace Scope

variable (S : Scope Name Op)

/-- The function of a statement function in the end.  Its text is taken before its own calls are
rewritten. -/
def lift (f : StmtFn Name Op) : Lifted Name Op where
  name := f.name
  dummies := f.dummies
  carry := (S.table.lookup f.name).getD []
  body := rewriteAll [] (S.table.filter fun fc => fc.1 ≠ f.name) f.body

/-- The expression of a site in the end. -/
def rewriteSite (s : Site Name Op) (e : Expr Name Op) : Expr Name Op :=
  rewriteAll s.locals S.table e

end Scope

/-! ## Values -/

/-- The data objects: the operations on them, the elements of arrays, and what a dummy argument with
declared bounds is for an actual argument. -/
structure Interp (Op D : Type) where
  op : Op → List D → D
  elem : D → List D → D
  assoc : List (Option D × Option D) → D → D

/-- The functions that names stand for. -/
abbrev Functions (Name D : Type) := Name → Option (List D → Option D)

section

variable {D : Type} (I : Interp Op D)

section

variable (F : Functions Name D) (env : Name → D)

mutual

/-- The value of an expression. -/
def eval : Expr Name Op → Option D
  | .var x => some (env x)
  | .op o args => (evalArgs args).map (I.op o)
  | .ref f args => (evalArgs args).bind fun vs => match F f with
    | some m => m vs
    | none => some (I.elem (env f) vs)

def evalArgs : List (Expr Name Op) → Option (List D)
  | [] => some []
  | a :: args => (eval a).bind fun v => (evalArgs args).map fun vs => v :: vs

end

/-- The bounds of a declaration. -/
def evalDims (dims : List (Option (Expr Name Op) × Option (Expr Name Op))) :
    List (Option D × Option D) :=
  dims.map fun b => (b.1.bind (eval I F env), b.2.bind (eval I F env))

end

/-- Dummy arguments with their actual arguments, and the other names as they are outside. -/
def bindDummies (dummies : List Name) (vs : List D) (store : Name → D) (x : Name) : D :=
  ((dummies.zip vs).lookup x).getD (store x)

/-- A call of a statement function. -/
def callStmtFn (F : Functions Name D) (store : Name → D) (f : StmtFn Name Op) (vs : List D) :
    Option D :=
  if vs.length = f.dummies.length then eval I F (bindDummies f.dummies vs store) f.body else none

/-- The statement functions of a scope, each one with the earlier ones. -/
def stmtFunctions (store : Name → D) : Functions Name D → List (StmtFn Name Op) → Functions Name D
  | F, [] => F
  | F, f :: fs => stmtFunctions store (fun g => if g =
      f.name then some (callStmtFn I F store f) else F g) fs

/-- The names in a new function: a carried-over variable has the bounds of its declaration there,
which are those of the variable in the scope as they are written. -/
def entryEnv (S : Scope Name Op) (F : Functions Name D) (store : Name → D)
    (l : Lifted Name Op) (vs : List D)
    (x : Name) : D :=
  let raw := bindDummies (l.dummies ++ l.carry) vs store
  if x ∈ l.carry then
    match S.decls x with
    | some d => I.assoc (evalDims I F raw d.dims) (raw x)
    | none => raw x
  else raw x

/-- A call of a new function. -/
def callLifted (S : Scope Name Op) (F : Functions Name D) (store : Name → D)
    (l : Lifted Name Op) (vs : List D) :
    Option D :=
  if vs.length = (l.dummies ++ l.carry).length then eval I F (entryEnv I S F store l vs) l.body
    else none

/-- The new functions: none of them calls a later one. -/
def liftedFunctions (S : Scope Name Op) (store : Name → D) :
    Functions Name D → List (Lifted Name Op) →
    Functions Name D
  | F, [] => F
  | F, l :: ls => liftedFunctions S store (fun g => if g =
      l.name then some (callLifted I S F store l) else F g) ls

/-- The functions where some names are declared anew. -/
def hide (locals : List Name) (F : Functions Name D) : Functions Name D :=
  fun f => if f ∈ locals then none else F f

/-- The names where some names are declared anew. -/
def shadow (locals : List Name) (inner store : Name → D) : Name → D := fun x =>
  if x ∈ locals then inner x else store x

end

/-! ## What the pass keeps -/

section

variable (isFn : Name → Bool) (p : List Name → Name → List (Expr Name Op) → Prop)

mutual

/-- A property of all calls of an expression, each with the calls that it is an argument of. -/
def AllCalls : List Name → Expr Name Op → Prop
  | _, .var _ => True
  | enclosing, .op _ args => AllCallsArgs enclosing args
  | enclosing, .ref f args =>
    if isFn f then p enclosing f args ∧
      AllCallsArgs (f :: enclosing) args else AllCallsArgs enclosing args

def AllCallsArgs : List Name → List (Expr Name Op) → Prop
  | _, [] => True
  | enclosing, a :: args => AllCalls enclosing a ∧ AllCallsArgs enclosing args

end

end

namespace Scope

variable (S : Scope Name Op)

/-- The functions that a site can call. -/
def callable (locals : List Name) (f : Name) : Bool := S.isFn f && f ∉ locals

/-- A call has the arguments of the statement function and then exactly the carried-over arguments
that the new function declares, and none of these names is declared anew where the call is. -/
def CarriesOver (captured : List Name) (_ : List Name) (f : Name) (args : List (Expr Name Op)) :
    Prop :=
  ∃ g ∈ S.fns, g.name = f ∧ ∃ actuals, args = actuals ++ (S.lift g).carry.map .var ∧
    actuals.length = g.dummies.length ∧ ∀ x ∈ (S.lift g).carry, x ∉ captured

/-- Every call of the rewritten scope carries over the variables. -/
def CallsCarryOver : Prop :=
  (∀ f ∈ S.fns, AllCalls S.isFn (S.CarriesOver f.dummies) [] (S.lift f).body) ∧
    ∀ s ∈ S.sites, ∀ e ∈ s.exprs, AllCalls (S.callable s.locals) (S.CarriesOver s.locals) []
      (S.rewriteSite s e)

/-- A name whose value never changes. -/
def fixed (x : Name) : Bool := match S.decls x with
  | some d => d.const || d.fixed
  | none => S.hostFixed x

/-- The names in the bounds of a declaration. -/
def boundNames (d : Decl Name Op) : List Name :=
  d.dims.flatMap fun b => (b.1.elim [] Expr.names) ++ (b.2.elim [] Expr.names)

/-- The bounds of a variable are known from its declaration: it is a scalar, or the bounds are not
deferred and are of values that never change. -/
def KnownBounds (d : Decl Name Op) : Prop :=
  d.dims = [] ∨ d.deferred = false ∧ ∀ y ∈ boundNames d, S.fixed y

/-- The variables have the bounds that they are declared with. -/
def Fits {D : Type} (I : Interp Op D) (store : Name → D) : Prop :=
  ∀ x d, S.decls x = some d → S.KnownBounds d →
  I.assoc (evalDims I (fun _ => none) store d.dims) (store x) = store x

/-- Every expression of every site has the value that it had, in every state. -/
def KeepsValues : Prop := ∀ (D : Type) (I : Interp Op D) (store : Name → D), S.Fits I store →
  ∀ s ∈ S.sites, ∀ e ∈ s.exprs, ∀ inner : Name → D,
    eval I (hide s.locals (liftedFunctions I S store (fun _ => none) (S.fns.map S.lift)))
      (shadow s.locals inner store)
        (S.rewriteSite s e) =
      eval I (hide s.locals (stmtFunctions I store (fun _ => none) S.fns))
        (shadow s.locals inner store) e

/-- A carried-over variable is, in the new function, the variable of the scope with its bounds, in
every state. -/
def KeepsVariables : Prop := ∀ (D : Type) (I : Interp Op D) (store : Name → D), S.Fits I store →
  ∀ F : Functions Name D, (∀ x, S.isFn x = false → F x = none) →
    ∀ f ∈ S.fns, ∀ vs, vs.length = f.dummies.length →
    ∀ x ∈ (S.lift f).carry, entryEnv I S F store (S.lift f) (vs ++ (S.lift f).carry.map store) x =
      store x

/-- **The pass keeps the calls**: the scope can have internal functions, every call carries over
what the new function declares, this is the variables of the scope, and the values are those of the
statement functions. -/
def Keeps : Prop := (S.internal → S.fns = []) ∧ S.CallsCarryOver ∧ S.KeepsVariables ∧ S.KeepsValues

end Scope

end StatementFunctions
