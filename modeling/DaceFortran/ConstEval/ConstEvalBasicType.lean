/-
# `const_eval_basic_type`

The constant evaluator of `ast_desugaring/analysis.py` over the expressions it
is given.  Names are resolved: a `Name` node is the entity the alias table gives
(`entity`, with the kind selector and the initializer of its declaration), or one
the table does not know (`external`).

An evaluation raises (`Raised`: an assertion, a numpy error or a parse failure),
returns `None`, or returns a scalar.
-/
import DaceFortran.ConstEval.Scalar

open TwosComplement

namespace ConstEval

/-! ## Expressions -/

/-- The operator of a binary node; `other` is one that `BINARY_OPS` lacks. -/
inductive BinaryOp where
  | arith (op : ArithOp)
  | cmp (op : CmpOp)
  | and | or | xor | other
  deriving DecidableEq

/-- The operator of a unary node; `other` is one that `UNARY_OPS` lacks. -/
inductive UnaryOp where
  | not | minus | other
  deriving DecidableEq

/-- The intrinsic functions: those evaluated by a branch of their own, the other entries
of `INTR_FNS`, and the rest. -/
inductive Intrinsic where
  | epsilon | mod | modulo
  | numpy (f : NumpyFn)
  | selectedRealKind | selectedIntKind | int | other
  deriving DecidableEq

/-- The type keyword of a declaration. -/
inductive TypeName where
  | integer | real | doublePrecision | logical | other
  deriving DecidableEq

/-- The exponent letter of a real literal. -/
inductive ExponentLetter where
  | none | e | d
  deriving DecidableEq

/-- What an `Entity_Decl` says of a name, its kind selector and initializer apart. -/
structure Entity where
  name : String
  typ : TypeName
  parameter : Bool
  array : Bool
  deriving DecidableEq

mutual

/-- An expression node.  `absent` is a missing optional child. -/
inductive Expr where
  | absent
  | null
  | external (name : String)
  | entity (d : Entity) (kind init : Expr)
  | ref (x : String) (subscripts : Args)
  | intLiteral (num : ℤ) (kind : KindParam)
  | realLiteral (num : Decimal) (letter : ExponentLetter) (kind : KindParam)
  | logicalLiteral (b : Bool) (kind : KindParam)
  | hex (n : ℕ)
  | binary (op : BinaryOp) (l r : Expr)
  | unary (op : UnaryOp) (e : Expr)
  | paren (e : Expr)
  | intrinsic (f : Intrinsic) (args : Args)

/-- The kind parameter of a literal: none, digits, a name, or a parsed node. -/
inductive KindParam where
  | default
  | digits (n : ℕ)
  | named (name : String) (e : Expr)
  | node (e : Expr)

/-- Actual arguments or subscripts, with the keyword of each (names are case-folded). -/
inductive Args where
  | nil
  | cons (keyword : Option String) (e : Expr) (rest : Args)

end

/-- Whether an optional child is there; a `NULL()` initializer counts as none. -/
def Expr.isPresent : Expr → Bool
  | .absent => false
  | .null => false
  | _ => true

/-- Something of an optional child, when it is there. -/
def Expr.ifPresent {α : Type} (e : Expr) (x : α) : Option α :=
  if e.isPresent then some x else none

/-! ## Results -/

/-- How an evaluation is aborted. -/
inductive Raised where
  | assertionError | overflowError | valueError | typeError | noMatchError | notImplementedError
  deriving DecidableEq

variable (P : Processor)

/-- An exception, `None`, or a scalar. -/
abbrev Result := Except Raised (Option (Scalar P))

variable {P}

/-- Python's `int(...)`. -/
def Scalar.pyInt : Scalar P → Except Raised ℤ
  | .int _ v => .ok v.toInt
  | .real _ x => (P.trunc x).elim (.error .valueError) .ok
  | .bool b => .ok (if b then 1 else 0)

/-! ## Literals -/

/-- The end of `_eval_int_literal`: `np.int8(num)` and its wider forms. -/
def npInt (num kind : ℤ) : Except Raised (Scalar P) :=
  match NpInt.ofBytes? kind with
  | none => .error .assertionError
  | some t =>
    if Fits (8 * t.countBytes) num then .ok (.ofInt t num) else .error .overflowError

/-- The kind a numeric kind selector of a literal resolves to: only `np.int32` is accepted. -/
def int32Kind : Option (Scalar P) → Option ℤ
  | some (.int .int32 v) => some v.toInt
  | _ => none

/-- The end of `_eval_real_literal`: `np.float32(num)` or `np.float64(num)`. -/
def npReal (num : Decimal) (letter : ExponentLetter) (kind : ℤ) : Result P :=
  match NpReal.ofBytes? kind with
  | none => .ok none
  | some t =>
    if letter = .d then .error .valueError else .ok (some (.real t (P.read _ num)))

/-! ## Named constants -/

/-- The spec of `find_type_of_entity` for an intrinsic type. -/
inductive TypeSpec where
  | integer (k : ℤ)
  | real (k : ℤ)
  | logical (k : Option ℤ)
  | other
  deriving DecidableEq

/-- `int(const_eval_basic_type(kind, alias_map) or 4)`. -/
def kindOr4 : Option (Scalar P) → Except Raised ℤ
  | none => .ok 4
  | some v => if v.truthy then v.pyInt else .ok 4

/-- The type of an entity with a kind selector. -/
def typeWithKind (k : ℤ) : TypeName → TypeSpec
  | .integer => .integer k
  | .real => .real k
  | .logical => .logical (some k)
  | _ => .other

/-- The type of an entity without one. -/
def typeWithoutKind : TypeName → TypeSpec
  | .integer => .integer 4
  | .real => .real 4
  | .doublePrecision => .real 8
  | .logical => .logical none
  | .other => .other

/-- The text of an integer. -/
def Decimal.ofInt (n : ℤ) : Decimal := ⟨n < 0, n.natAbs, 0⟩

/-- `np.float32(str(val))` and its wider form; a number without a decimal text is read back
as what it is. -/
def reread (k : ℕ) {k' : ℕ} (x : P.R k') : P.R k :=
  match P.write x with
  | some d => P.read k d
  | none => P.convert k' k x

/-- `optimizations.val_2_np_lit`. -/
def val2NpLit (val : Scalar P) : TypeSpec → Except Raised (Scalar P)
  | .integer k =>
    match NpInt.ofBytes? k, val with
    | none, _ => .error .notImplementedError
    | some t, .int _ v =>
      if Fits (8 * t.countBytes) v.toInt then .ok (.ofInt t v.toInt) else .error .overflowError
    | some _, _ => .error .valueError
  | .real k =>
    match NpReal.ofBytes? k, val with
    | none, _ => .error .notImplementedError
    | some t, .int _ v => .ok (.real t (P.read _ (.ofInt v.toInt)))
    | some t, .real _ x => .ok (.real t (reread _ x))
    | some _, .bool _ => .error .valueError
  | .logical none =>
    match val with
    | .bool b => .ok (.bool b)
    | .int _ v =>
      if v.toInt = 0 then .ok (.bool false)
      else if v.toInt = 1 then .ok (.bool true)
      else .error .assertionError
    | .real _ _ => .error .assertionError
  | .logical (some _) => .error .notImplementedError
  | .other => .error .notImplementedError

/-- `find_type_of_entity`, from the evaluated kind selector. -/
def declaredSpec (typ : TypeName) : Option (Result P) → Except Raised TypeSpec
  | none => .ok (typeWithoutKind typ)
  | some kind => do
    let k ← kindOr4 (← kind)
    return typeWithKind k typ

/-- The branch of `Name`, from the type of the entity and the evaluated initializer. -/
def constantValue (tolerate : Bool) (d : Entity) (spec : TypeSpec) (init : Option (Result P)) :
    Result P :=
  if !d.parameter || d.array then .ok none
  else
    match init with
    | none => .ok none
    | some init => do
      match ← init with
      | none => if tolerate then return none else .error .assertionError
      | some val => return some (← val2NpLit val spec)

/-! ## Operators -/

/-- `_cdiv` on two promoted integers: numpy floors (and gives 0 for a zero divisor), and a
negative inexact quotient is stepped back towards zero. -/
def cdivInt (t : NpInt) (a b : ℤ) : BitVec (8 * t.countBytes) :=
  let quotient := if b = 0 then 0 else BitVec.ofInt _ (a.fdiv b)
  let remainder := if b = 0 then 0 else a.fmod b
  if remainder ≠ 0 ∧ ((a < 0) ≠ (b < 0)) then quotient + 1 else quotient

/-- The arithmetic entries of `BINARY_OPS`. -/
def arithValue : ArithOp → Promoted P → Except Raised (Scalar P)
  | .add, .ints t a b => .ok (.ofInt t (a + b))
  | .sub, .ints t a b => .ok (.ofInt t (a - b))
  | .mul, .ints t a b => .ok (.ofInt t (a * b))
  | .div, .ints t a b => .ok (.int t (cdivInt t a b))
  | .pow, .ints t a b =>
    if b < 0 then .error .valueError else .ok (.ofInt t (a ^ b.toNat))
  | op, .reals t x y => .ok (.real t (P.arith op x y))

/-- The relational entries of `BINARY_OPS`. -/
def cmpValue (op : CmpOp) : Promoted P → Scalar P
  | .ints _ a b => .bool (op.onInt a b)
  | .reals _ x y => .bool (P.cmp op x y)

/-- Whether the operand is the scalar `np.bool_(b)` itself. -/
def isBool (b : Bool) : Option (Scalar P) → Bool
  | some (.bool c) => b == c
  | _ => false

/-- A binary node once both operands are evaluated. -/
def binaryValue (op : BinaryOp) (lv rv : Option (Scalar P)) : Result P :=
  if op = .and ∧ (isBool false lv ∨ isBool false rv) then .ok (some (.bool false))
  else if op = .or ∧ (isBool true lv ∨ isBool true rv) then .ok (some (.bool true))
  else
    match lv, rv with
    | some a, some b =>
      match op with
      | .arith op => do
        let p ← (promote a b).elim (.error .typeError) .ok
        return some (← arithValue op p)
      | .cmp op => do
        let p ← (promote a b).elim (.error .typeError) .ok
        return some (cmpValue op p)
      | .and => .ok (some (.bool (a.truthy && b.truthy)))
      | .or => .ok (some (.bool (a.truthy || b.truthy)))
      | .xor => .ok (some (.bool (a.truthy ^^ b.truthy)))
      | .other => .ok none
    | _, _ => .ok none

/-- A unary node once its operand is evaluated. -/
def unaryValue : UnaryOp → Scalar P → Except Raised (Scalar P)
  | .not, v => .ok (.bool !v.truthy)
  | .minus, .int t v => .ok (.ofInt t (-v.toInt))
  | .minus, .real t x => .ok (.real t (P.neg x))
  | .minus, .bool _ => .error .typeError
  | .other, _ => .error .typeError

/-! ## Intrinsic functions -/

/-- `math.ceil((math.log2(10**p) + 1) / 8)`, with exact logarithms. -/
def wordBytes (p : ℤ) : ℤ :=
  if 0 ≤ p then ((Nat.clog 2 (10 ^ p.toNat) + 8) / 8 : ℕ)
  else -((Nat.log 2 (10 ^ (-p).toNat) - 1) / 8 : ℕ)

/-- `_eval_selected_int_kind`; below the smallest double `10**p` has no logarithm. -/
def evalSelectedIntKind (p : ℤ) : Except Raised ℤ :=
  if p < -323 then .error .valueError
  else
    let kind := wordBytes p
    if 8 < kind then .error .assertionError
    else .ok (if kind ≤ 2 then kind else if kind ≤ 4 then 4 else 8)

/-- `_eval_selected_real_kind`. -/
def evalSelectedRealKind (p r radix : Option ℤ) : Option ℤ :=
  if radix ≠ none ∧ radix ≠ some 2 then none
  else
    match p with
    | none => none
    | some p =>
      if p < 4 then none
      else if p ≤ 6 ∧ r.getD 0 ≤ 37 then some 4
      else if p ≤ 15 ∧ r.getD 0 ≤ 307 then some 8
      else none

/-- The dummies of `SELECTED_REAL_KIND`. -/
def selectedRealKindNames : List String := ["P", "R", "RADIX"]

/-- The name an argument of `SELECTED_REAL_KIND` is recorded under. -/
def selectedRealKindName (position : ℕ) (keywordSeen : Bool) : Option String → Option String
  | some name => some name
  | none => if keywordSeen then none else selectedRealKindNames[position]?

/-- The loop of `_selected_real_kind_args`, from argument `position` on. -/
def selectedRealKindLoop : ℕ → Bool → List (String × ℤ) → List (Option String × Result P) →
    Except Raised (Option (List (String × ℤ)))
  | _, _, values, [] => .ok (some values)
  | position, keywordSeen, values, (keyword, value) :: rest =>
    match selectedRealKindName position keywordSeen keyword with
    | none => .ok none
    | some name =>
      if name ∉ selectedRealKindNames ∨ name ∈ values.map Prod.fst then .ok none
      else do
        match ← value with
        | some (.int _ v) =>
          selectedRealKindLoop (position + 1) (keywordSeen || keyword.isSome)
            (values ++ [(name, v.toInt)]) rest
        | _ => .ok none

/-- The value recorded under a name. -/
def lookup (name : String) (values : List (String × ℤ)) : Option ℤ :=
  (values.find? fun q => q.1 = name).map Prod.snd

/-- The branch of `SELECTED_REAL_KIND`. -/
def selectedRealKindValue (args : List (Option String × Result P)) : Result P := do
  match ← selectedRealKindLoop 0 false [] args with
  | none => return none
  | some values =>
    if lookup "P" values = none ∧ lookup "R" values = none then return none
    else
      match evalSelectedRealKind (lookup "P" values) (lookup "R" values)
          (lookup "RADIX" values) with
      | none => return none
      | some kind => return some (.ofInt .int32 kind)

/-- The value of one argument; an `Actual_Arg_Spec` has none. -/
def argValue : Option String × Result P → Result P
  | (none, v) => v
  | (some _, _) => .ok none

/-- All arguments, when all are real. -/
def allReal : List (Option (Scalar P)) → Option (List (Σ t : NpReal, P.R t.countBytes))
  | [] => some []
  | some (.real t x) :: rest => (allReal rest).map (⟨t, x⟩ :: ·)
  | _ :: _ => none

/-- `types.is_numpy_real`. -/
def isReal : Option (Scalar P) → Bool
  | some (.real _ _) => true
  | _ => false

/-- `types.is_numpy_int`. -/
def isInt : Option (Scalar P) → Bool
  | some (.int _ _) => true
  | _ => false

/-- `np.fmod` and `np.mod`; an integer divisor of zero gives 0. -/
def remainderValue (modulo : Bool) : Promoted P → Scalar P
  | .ints t a b =>
    .ofInt t (if b = 0 then 0 else if modulo then a.fmod b else a.tmod b)
  | .reals t x y => .real t (if modulo then P.modulo x y else P.fmod x y)

/-- `MOD` and `MODULO`: on two reals or on two integers. -/
def modValue (modulo : Bool) : List (Option (Scalar P)) → Result P
  | [some (.int s v), some (.int t w)] =>
    .ok (some (remainderValue modulo (.ints (s.join t) v.toInt w.toInt)))
  | [some (.real s x), some (.real t y)] =>
    .ok (some (remainderValue modulo (.reals (s.join t) (P.convert _ _ x) (P.convert _ _ y))))
  | [_, _] => .ok none
  | avals =>
    if avals.all isReal ∨ avals.all isInt then .error .typeError else .ok none

/-- A call of one of the numpy functions that fold on reals only. -/
def numpyValue (f : NumpyFn) (avals : List (Option (Scalar P))) : Result P :=
  match allReal avals with
  | none => .ok none
  | some xs =>
    match P.call f xs with
    | none => .error .typeError
    | some (.inl ⟨t, x⟩) => .ok (some (.real t x))
    | some (.inr b) => .ok (some (.bool b))

/-- The branch of `INT`: `_eval_int_literal` of the text `num_kind`, which no sign may start. -/
def intValue (kind num : Option (Scalar P)) : Result P := do
  match num, kind with
  | some num, some kind =>
    let num ← num.pyInt
    let kind ← kind.pyInt
    if num < 0 ∨ kind < 0 then .error .noMatchError else return some (← npInt num kind)
  | _, _ => return none

/-- An intrinsic reference. -/
def intrinsicValue (f : Intrinsic) (args : List (Option String × Result P)) : Result P :=
  match f with
  | .epsilon =>
    match args with
    | [a] => do
      match ← argValue a with
      | some (.real t _) => return some (.real t (P.convert 8 _ P.epsilon))
      | _ => return none
    | _ => .error .valueError
  | .mod => do modValue false (← args.mapM argValue)
  | .modulo => do modValue true (← args.mapM argValue)
  | .numpy g => do numpyValue g (← args.mapM argValue)
  | .selectedRealKind => selectedRealKindValue args
  | .selectedIntKind =>
    match args with
    | [p] => do
      match ← argValue p with
      | none => return none
      | some p => return some (.ofInt .int32 (← evalSelectedIntKind (← p.pyInt)))
    | _ => .error .valueError
  | .int =>
    match args with
    | [] => .error .valueError
    | [num, kind] => do
      let kind ← argValue kind
      intValue kind (← argValue num)
    | num :: _ => do intValue (some (.ofInt .int32 4)) (← argValue num)
  | .other => .ok none

/-! ## The evaluator -/

variable (P)

mutual

/-- `const_eval_basic_type`; `tolerate` is `OPTIONS.tolerate_external_uses`. -/
def constEval (tolerate : Bool) : Expr → Result P
  | .absent => .ok none
  | .null => .ok none
  | .external _ => .ok none
  | .ref _ _ => .ok none
  | .entity d kind init => do
    let spec ← declaredSpec d.typ (kind.ifPresent (constEval tolerate kind))
    constantValue tolerate d spec (init.ifPresent (constEval tolerate init))
  | .intLiteral num kind => do return some (← npInt num (← intLiteralKind tolerate kind))
  | .realLiteral num letter .default =>
    if letter = .d then npReal num .e 8 else npReal num letter 4
  | .realLiteral num letter kind => do
    match ← realLiteralKind tolerate kind with
    | none => return none
    | some k => npReal num letter k
  -- the text of a literal with a kind parameter is never ".TRUE."
  | .logicalLiteral b .default => .ok (some (.bool b))
  | .logicalLiteral _ _ => .ok (some (.bool false))
  | .hex n => do return some (← npInt n 8)
  | .binary op l r =>
    if op = .other then .ok none
    else do binaryValue op (← constEval tolerate l) (← constEval tolerate r)
  | .unary op e =>
    if op = .other then .ok none
    else do
      match ← constEval tolerate e with
      | none => return none
      | some v => return some (← unaryValue op v)
  | .paren e => constEval tolerate e
  | .intrinsic f args => intrinsicValue f (constEvalArgs tolerate args)

/-- The kind of `_eval_int_literal`. -/
def intLiteralKind (tolerate : Bool) : KindParam → Except Raised ℤ
  | .default => .ok 4
  | .digits n => .ok n
  | .named name e =>
    if name = "c_int" then .ok 4
    else if name = "c_double" then .ok 8
    else if name = "c_float" then .ok 4
    else
      match e with
      | .external _ => .error .assertionError
      | e => do (int32Kind (← constEval tolerate e)).elim (.error .assertionError) .ok
  | .node _ => .error .assertionError

/-- The kind of `_eval_real_literal` where the literal has one; digits are looked up as a name. -/
def realLiteralKind (tolerate : Bool) : KindParam → Except Raised (Option ℤ)
  | .default => .ok none
  | .digits _ => .ok none
  | .named _ e => do return int32Kind (← constEval tolerate e)
  | .node e => do
    match ← constEval tolerate e with
    | some (.int .int32 v) => return some v.toInt
    | some (.int .int64 v) => return some v.toInt
    | _ => return none

/-- What each argument evaluates to; the caller decides which it looks at. -/
def constEvalArgs (tolerate : Bool) : Args → List (Option String × Result P)
  | .nil => []
  | .cons keyword e rest => (keyword, constEval tolerate e) :: constEvalArgs tolerate rest

end

end ConstEval
