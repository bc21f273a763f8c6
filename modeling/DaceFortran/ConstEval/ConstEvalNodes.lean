/-
# `const_eval_nodes`

The folding pass of `ast_desugaring/optimizations.py`.  Its sweeps visit the
nodes of a program bottom-up; what they do to one node depends only on the node
and on the place it stands in, so a program is the list of its places
(`Place`): the right-hand sides, the case ranges, the kind selectors, the nodes
whose names alone are folded, and all others.
-/
import DaceFortran.ConstEval.Agreement

namespace ConstEval

variable (P : Processor)

/-! ## Folding one node -/

/-- `_const_eval_node`: the literal that replaces the node, if it folds. -/
def constEvalNode (tolerate : Bool) (e : Expr) : Except Raised (Option Expr) := do
  match ← constEval P tolerate e with
  | none => return none
  | some v => return some (← numpyTypeToLiteral v)

mutual

/-- The names of an expression, each folded: `walk(node, f03.Name)`. -/
def foldNames (tolerate : Bool) : Expr → Except Raised Expr
  | .entity d kind init => do
    return (← constEvalNode P tolerate (.entity d kind init)).getD (.entity d kind init)
  | .external name => .ok (.external name)
  | .ref x subscripts => do return .ref x (← foldArgNames tolerate subscripts)
  -- an integer literal whose kind has become a literal is refused when it is evaluated next
  | .intLiteral num (.named name e) => do
    match ← constEvalNode P tolerate e with
    | none => return .intLiteral num (.named name e)
    | some _ => .error .assertionError
  | .realLiteral num letter (.named name e) => do
    match ← constEvalNode P tolerate e with
    | none => return .realLiteral num letter (.named name e)
    | some lit => return .realLiteral num letter (.node lit)
  | .binary op l r => do
    let r ← foldNames tolerate r
    return .binary op (← foldNames tolerate l) r
  | .unary op e => do return .unary op (← foldNames tolerate e)
  | .paren e => do return .paren (← foldNames tolerate e)
  | .intrinsic f args => do return .intrinsic f (← foldArgNames tolerate args)
  -- a logical literal is folded whatever its kind
  | e => .ok e

/-- The names of the arguments; keywords are no references. -/
def foldArgNames (tolerate : Bool) : Args → Except Raised Args
  | .nil => .ok .nil
  | .cons keyword e rest => do
    let rest ← foldArgNames tolerate rest
    return .cons keyword (← foldNames tolerate e) rest

end

/-- A visit of one node: it is folded, or its names are. -/
def foldNode (tolerate : Bool) (e : Expr) : Except Raised Expr := do
  match ← constEvalNode P tolerate e with
  | some lit => return lit
  | none => foldNames P tolerate e

/-! ## The sweeps -/

mutual

/-- The general sweep, over `EXPRESSION_CLASSES`: binary nodes, intrinsic references and
literals, bottom-up. -/
def foldExpr (tolerate : Bool) : Expr → Except Raised Expr
  | .intLiteral num kind => foldNode P tolerate (.intLiteral num kind)
  | .realLiteral num letter kind => foldNode P tolerate (.realLiteral num letter kind)
  | .logicalLiteral b kind => foldNode P tolerate (.logicalLiteral b kind)
  | .binary op l r => do
    let r ← foldExpr tolerate r
    foldNode P tolerate (.binary op (← foldExpr tolerate l) r)
  | .intrinsic f args => do foldNode P tolerate (.intrinsic f (← foldArgs tolerate args))
  | .ref x subscripts => do return .ref x (← foldArgs tolerate subscripts)
  | .unary op e => do return .unary op (← foldExpr tolerate e)
  | .paren e => do return .paren (← foldExpr tolerate e)
  | e => .ok e

/-- The same below the arguments. -/
def foldArgs (tolerate : Bool) : Args → Except Raised Args
  | .nil => .ok .nil
  | .cons keyword e rest => do
    let rest ← foldArgs tolerate rest
    return .cons keyword (← foldExpr tolerate e) rest

end

mutual

/-- The last sweep below a node: the names of every subscript list and argument list. -/
def foldRefs (tolerate : Bool) : Expr → Except Raised Expr
  | .ref x subscripts => do return .ref x (← foldArgNames P tolerate subscripts)
  | .binary op l r => do
    let r ← foldRefs tolerate r
    return .binary op (← foldRefs tolerate l) r
  | .unary op e => do return .unary op (← foldRefs tolerate e)
  | .paren e => do return .paren (← foldRefs tolerate e)
  | .intrinsic f args => do return .intrinsic f (← foldArgRefs tolerate args)
  | e => .ok e

/-- The same below the arguments. -/
def foldArgRefs (tolerate : Bool) : Args → Except Raised Args
  | .nil => .ok .nil
  | .cons keyword e rest => do
    let rest ← foldArgRefs tolerate rest
    return .cons keyword (← foldRefs tolerate e) rest

end

/-- Where a node stands: the right-hand side of an assignment, a `CASE` value, a kind selector,
a node whose names are folded (`NON_EXPRESSION_CLASSES`: loop control, call, shape,
initialization, `WRITE`, `ALLOCATE`), or anywhere else (a left-hand side, a condition). -/
inductive Context where
  | rightHandSide | caseValue | kindSelector | nonExpression | other
  deriving DecidableEq

/-- A node of the program with its context. -/
structure Place where
  context : Context
  expr : Expr

/-- `_const_eval_node` on a whole node. -/
def foldWhole (tolerate : Bool) (e : Expr) : Except Raised Expr := do
  return (← constEvalNode P tolerate e).getD e

/-- The sweeps that come before the general one. -/
def foldBefore (tolerate : Bool) : Context → Expr → Except Raised Expr
  | .rightHandSide, e => foldWhole P tolerate e
  | .caseValue, e => foldNode P tolerate e
  | _, e => .ok e

/-- The sweeps that come after it. -/
def foldAfter (tolerate : Bool) : Context → Expr → Except Raised Expr
  | .kindSelector, e => do foldRefs P tolerate (← foldWhole P tolerate e)
  | .nonExpression, e => foldNames P tolerate e
  | _, e => foldRefs P tolerate e

/-- All sweeps at one place. -/
def foldPlace (tolerate : Bool) (p : Place) : Except Raised Place := do
  let e ← foldBefore P tolerate p.context p.expr
  let e ← foldExpr P tolerate e
  return { p with expr := ← foldAfter P tolerate p.context e }

/-- **`const_eval_nodes`**. -/
def constEvalNodes (tolerate : Bool) (program : List Place) : Except Raised (List Place) :=
  program.mapM (foldPlace P tolerate)

/-! ## What a replacement may do -/

/-- A variable, or a name the table does not know: it may be defined by the program. -/
def Expr.isVariable : Expr → Bool
  | .entity d _ _ => !d.parameter
  | .ref _ _ => true
  | .external _ => true
  | _ => false

/-- The literal is one that can be written after an underscore: digits without a suffix. -/
def Expr.isKindDigits : Expr → Bool
  | .intLiteral _ .default => true
  | _ => false

variable {P}

mutual

/-- The second expression is the first with some nodes, none of them a variable, replaced by
literals of their type, kind and value. -/
inductive Replaced (ρ : Env P) : Expr → Expr → Prop
  | same (e : Expr) : Replaced ρ e e
  | literal {e lit : Expr} {v : Scalar P} (hlit : numpyTypeToLiteral v = .ok lit)
      (hvar : e.isVariable = false)
      (hval : ∀ w, fortran ρ e = some w → fortran ρ lit = some w) : Replaced ρ e lit
  | suffix {num : Decimal} {letter : ExponentLetter} {name : String} {e lit : Expr}
      (hdigits : ∀ w, fortran ρ e = some w → w.kindNumber.isSome → lit.isKindDigits)
      (hval : ∀ w, fortran ρ e = some w → fortran ρ lit = some w) :
      Replaced ρ (.realLiteral num letter (.named name e)) (.realLiteral num letter (.node lit))
  | ref {x : String} {a a' : Args} (h : ReplacedArgs ρ a a') :
      Replaced ρ (.ref x a) (.ref x a')
  | binary {op : BinaryOp} {l l' r r' : Expr} (hl : Replaced ρ l l') (hr : Replaced ρ r r') :
      Replaced ρ (.binary op l r) (.binary op l' r')
  | unary {op : UnaryOp} {e e' : Expr} (h : Replaced ρ e e') :
      Replaced ρ (.unary op e) (.unary op e')
  | paren {e e' : Expr} (h : Replaced ρ e e') : Replaced ρ (.paren e) (.paren e')
  | intrinsic {f : Intrinsic} {a a' : Args} (h : ReplacedArgs ρ a a') :
      Replaced ρ (.intrinsic f a) (.intrinsic f a')

/-- The same for the arguments, keyword by keyword. -/
inductive ReplacedArgs (ρ : Env P) : Args → Args → Prop
  | nil : ReplacedArgs ρ .nil .nil
  | cons {keyword : Option String} {e e' : Expr} {a a' : Args} (h : Replaced ρ e e')
      (t : ReplacedArgs ρ a a') : ReplacedArgs ρ (.cons keyword e a) (.cons keyword e' a')

end

/-- A value whose literal can stand after an underscore. -/
def Value.IsKindDigits : Value P → Prop
  | .int 4 n => 0 ≤ n
  | _ => False

/-- A named kind of a real literal that the sweep turns into something else than digits
(`1.0_wp` becomes `1.0_8_8` when `wp` is no default integer). -/
def SuffixDefect (ρ : Env P) (tolerate : Bool) : Expr → Prop
  | .realLiteral _ _ (.named _ e) =>
    outcome ρ tolerate e = .value ∧
      ∃ w, fortran ρ e = some w ∧ w.kindNumber.isSome ∧ ¬w.IsKindDigits
  | _ => False

end ConstEval
