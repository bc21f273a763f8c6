/-
# The value Fortran gives a constant expression

The rules of the language for the expressions `const_eval_basic_type` folds:
operators, parentheses, named constants, and the intrinsic functions that fold
on integers.  An expression has no value (`none`) when it is not of these forms,
when its operands have the wrong types, or when the result is not representable
in its kind.
-/
import DaceFortran.ConstEval.ConstEvalBasicType

open TwosComplement

namespace ConstEval

variable {P : Processor}

/-- What is defined of the arguments stays so. -/
def ArgsRefine (args args' : List (Option String × Option (Value P))) : Prop :=
  List.Forall₂ (fun q q' => q.1 = q'.1 ∧ ∀ w, q.2 = some w → q'.2 = some w) args args'

/-- The values of variables and of references, from the values of their subscripts; a
reference that has a value does not depend on a subscript that has none. -/
structure Env (P : Processor) where
  val : String → List (Option String × Option (Value P)) → Option (Value P)
  mono : ∀ x args args' w, ArgsRefine args args' → val x args = some w → val x args' = some w

/-- No variable has a value. -/
def Env.empty : Env P where
  val _ _ := none
  mono _ _ _ _ _ h := h

/-- An integer value of kind `k`, if the kind represents it. -/
def Value.ofInt? (k : ℕ) (n : ℤ) : Option (Value P) :=
  if Fits (8 * k) n then some (.int k n) else none

/-- The kind an integer value names. -/
def Value.kindNumber : Value P → Option ℕ
  | .int _ n => if 0 < n then some n.toNat else none
  | _ => none

/-! ## Named constants -/

/-- A numeric or logical type with its kind. -/
inductive FType where
  | int (k : ℕ)
  | real (k : ℕ)
  | logical (k : ℕ)
  deriving DecidableEq

/-- The kind of a declaration, from the value of its kind selector; `none` is an invalid one. -/
def declaredKind : Option (Option (Value P)) → Option (Option ℕ)
  | none => some none
  | some v => v.bind fun v => v.kindNumber.map some

/-- The type a declaration gives. -/
def declaredType (typ : TypeName) (kind : Option ℕ) : Option FType :=
  match typ, kind with
  | .integer, kind => some (.int (kind.getD 4))
  | .real, kind => some (.real (kind.getD 4))
  | .logical, kind => some (.logical (kind.getD 4))
  | .doublePrecision, none => some (.real 8)
  | _, _ => none

/-- Conversion of an initial value to the type of the constant. -/
def Value.convertTo : FType → Value P → Option (Value P)
  | .int k, .int _ n => Value.ofInt? k n
  | .int k, .real _ x => (P.trunc x).bind (Value.ofInt? k)
  | .real k, .int _ n => some (.real k (P.ofInt k n))
  | .real k, .real k' x => some (.real k (P.convert k' k x))
  | .logical k, .logical _ b => some (.logical k b)
  | _, _ => none

/-! ## Operators -/

/-- Integer arithmetic: division and negative powers truncate. -/
def intArith : ArithOp → ℤ → ℤ → Option ℤ
  | .add, a, b => some (a + b)
  | .sub, a, b => some (a - b)
  | .mul, a, b => some (a * b)
  | .div, a, b => if b = 0 then none else some (a.tdiv b)
  | .pow, a, b =>
    if 0 ≤ b then some (a ^ b.toNat)
    else if a = 0 then none
    else some (Int.tdiv 1 (a ^ (-b).toNat))

/-- An arithmetic operation: the kind is that of the real operand, and of the wider
operand when the types are the same. -/
def arithFortran (op : ArithOp) : Value P → Value P → Option (Value P)
  | .int k a, .int k' b => (intArith op a b).bind (Value.ofInt? (max k k'))
  | .int _ a, .real k y => some (.real k (P.arith op (P.ofInt k a) y))
  | .real k x, .int _ b => some (.real k (P.arith op x (P.ofInt k b)))
  | .real k x, .real k' y =>
    some (.real (max k k') (P.arith op (P.convert k _ x) (P.convert k' _ y)))
  | _, _ => none

/-- A relational operation, with the same conversions. -/
def cmpFortran (op : CmpOp) : Value P → Value P → Option (Value P)
  | .int _ a, .int _ b => some (.logical 4 (op.onInt a b))
  | .int _ a, .real k y => some (.logical 4 (P.cmp op (P.ofInt k a) y))
  | .real k x, .int _ b => some (.logical 4 (P.cmp op x (P.ofInt k b)))
  | .real k x, .real k' y =>
    some (.logical 4 (P.cmp op (P.convert k (max k k') x) (P.convert k' (max k k') y)))
  | _, _ => none

/-- A logical operation on two operands of one kind. -/
def logicalFortran (f : Bool → Bool → Bool) : Value P → Value P → Option (Value P)
  | .logical k a, .logical k' b => if k = k' then some (.logical k (f a b)) else none
  | _, _ => none

/-- A binary operation. -/
def binaryFortran : BinaryOp → Value P → Value P → Option (Value P)
  | .arith op => arithFortran op
  | .cmp op => cmpFortran op
  | .and => logicalFortran (· && ·)
  | .or => logicalFortran (· || ·)
  | .xor => logicalFortran (· ^^ ·)
  | .other => fun _ _ => none

/-- A unary operation. -/
def unaryFortran : UnaryOp → Value P → Option (Value P)
  | .not, .logical k b => some (.logical k !b)
  | .minus, .int k n => Value.ofInt? k (-n)
  | .minus, .real k x => some (.real k (P.neg x))
  | _, _ => none

/-! ## Intrinsic functions -/

/-- The dummy an argument names, by its keyword or by its position. -/
def dummyOf (names : List String) (position : ℕ) (keywordSeen : Bool) :
    Option String → Option String
  | some name => if name ∈ names then some name else none
  | none => if keywordSeen then none else names[position]?

/-- Argument association: positional arguments first, no dummy twice. -/
def associate {α : Type} (names : List String) :
    ℕ → Bool → List (Option String × α) → Option (List (String × α))
  | _, _, [] => some []
  | position, keywordSeen, (keyword, value) :: rest => do
    let name ← dummyOf names position keywordSeen keyword
    let tail ← associate names (position + 1) (keywordSeen || keyword.isSome) rest
    if name ∈ tail.map Prod.fst then none else some ((name, value) :: tail)

/-- The actual argument of a dummy. -/
def actual {α : Type} (name : String) (assoc : List (String × α)) : Option α :=
  (assoc.find? fun q => q.1 = name).map Prod.snd

/-- `MOD` takes the sign of the dividend, `MODULO` that of the divisor. -/
def modFortran (modulo : Bool) : Value P → Value P → Option (Value P)
  | .int k a, .int k' p =>
    if k = k' ∧ p ≠ 0 then some (.int k (if modulo then a.fmod p else a.tmod p)) else none
  | .real k x, .real k' y =>
    if h : k' = k then
      some (.real k (if modulo then P.modulo x (h ▸ y) else P.fmod x (h ▸ y)))
    else none
  | _, _ => none

/-- `INT` truncates, to the kind asked for. -/
def intFortran (k : ℕ) : Value P → Option (Value P)
  | .int _ n => Value.ofInt? k n
  | .real _ x => (P.trunc x).bind (Value.ofInt? k)
  | _ => none

/-- The integer kinds, by growing range. -/
def intKinds : List ℕ := [1, 2, 4, 8, 16]

/-- `SELECTED_INT_KIND(R)`: the first kind that holds every `n` with `|n| < 10**R`. -/
def selectedIntKind (r : ℤ) : ℤ :=
  match intKinds.find? fun k => r < 0 ∨ 10 ^ r.toNat ≤ 2 ^ (8 * k - 1) with
  | some k => k
  | none => -1

/-- `SELECTED_REAL_KIND(P, R, RADIX)`: the first kind of at least that precision and range;
every kind has radix 2. -/
def selectedRealKind (kinds : List RealKind) (p r radix : ℤ) : ℤ :=
  if radix ≠ 2 then -5
  else
    match kinds.find? fun q => p ≤ q.precision ∧ r ≤ q.range with
    | some q => q.kind
    | none =>
      if kinds.any fun q => p ≤ q.precision then
        if kinds.any fun q => r ≤ q.range then -4 else -2
      else if kinds.any fun q => r ≤ q.range then -1 else -3

/-- The kind asked for by a `KIND` argument, the default kind without one. -/
def kindArg : Option (Value P) → Option ℕ
  | none => some 4
  | some v => v.kindNumber

/-- An integer argument, or the default of an absent one. -/
def integerArg (dflt : ℤ) : Option (Value P) → Option ℤ
  | none => some dflt
  | some (.int _ n) => some n
  | some _ => none

/-- An intrinsic reference. -/
def intrinsicFortran (f : Intrinsic) (args : List (Option String × Value P)) :
    Option (Value P) :=
  match f with
  | .mod => do
    let assoc ← associate ["A", "P"] 0 false args
    modFortran false (← actual "A" assoc) (← actual "P" assoc)
  | .modulo => do
    let assoc ← associate ["A", "P"] 0 false args
    modFortran true (← actual "A" assoc) (← actual "P" assoc)
  | .int => do
    let assoc ← associate ["A", "KIND"] 0 false args
    let k ← kindArg (actual "KIND" assoc)
    intFortran k (← actual "A" assoc)
  | .selectedIntKind => do
    let assoc ← associate ["R"] 0 false args
    let r ← (actual "R" assoc).bind fun v => integerArg 0 (some v)
    return .int 4 (selectedIntKind r)
  | .selectedRealKind => do
    let assoc ← associate selectedRealKindNames 0 false args
    if (actual "P" assoc).isNone ∧ (actual "R" assoc).isNone then none
    else
      let p ← integerArg 0 (actual "P" assoc)
      let r ← integerArg 0 (actual "R" assoc)
      let radix ← integerArg 2 (actual "RADIX" assoc)
      return .int 4 (selectedRealKind P.realKinds p r radix)
  | _ => none

/-! ## Expressions -/

/-- The arguments, when all have values. -/
def allValues : List (Option String × Option (Value P)) → Option (List (Option String × Value P))
  | [] => some []
  | (keyword, some v) :: rest => (allValues rest).map ((keyword, v) :: ·)
  | (_, none) :: _ => none

mutual

/-- The Fortran value of an expression in an environment for its variables. -/
def fortran (ρ : Env P) : Expr → Option (Value P)
  | .absent => none
  | .null => none
  | .external name => (P.moduleConst name).map (.int 4)
  | .ref x subscripts => ρ.val x (fortranArgs ρ subscripts)
  | .entity d kind init => do
    let kind ← declaredKind (kind.ifPresent (fortran ρ kind))
    if !d.parameter then ρ.val d.name []
    else if d.array then none
    else
      let t ← declaredType d.typ kind
      (← fortran ρ init).convertTo t
  | .intLiteral num kind => do Value.ofInt? (← kindParam ρ 4 kind) num
  | .realLiteral num letter .default => some (
      if letter = .d then .real 8 (P.read 8 num) else .real 4 (P.read 4 num))
  | .realLiteral num letter kind => do
    let k ← kindParam ρ 4 kind
    if letter = .d then none else some (.real k (P.read k num))
  | .logicalLiteral b kind => do return .logical (← kindParam ρ 4 kind) b
  | .hex _ => none
  | .binary op l r => do binaryFortran op (← fortran ρ l) (← fortran ρ r)
  | .unary op e => do unaryFortran op (← fortran ρ e)
  | .paren e => fortran ρ e
  | .intrinsic f args => do intrinsicFortran f (← allValues (fortranArgs ρ args))

/-- The kind parameter of a literal. -/
def kindParam (ρ : Env P) (dflt : ℕ) : KindParam → Option ℕ
  | .default => some dflt
  | .digits n => if 0 < n then some n else none
  | .named _ e => (fortran ρ e).bind Value.kindNumber
  | .node e => (fortran ρ e).bind Value.kindNumber

/-- The values of the arguments. -/
def fortranArgs (ρ : Env P) : Args → List (Option String × Option (Value P))
  | .nil => []
  | .cons keyword e rest => (keyword, fortran ρ e) :: fortranArgs ρ rest

end

end ConstEval

/-
# Where the evaluator departs from Fortran

`outcome` says of an expression with a Fortran value whether the evaluator
folds it, gives `None`, or is aborted: it looks only at the form of the
expression and at the Fortran values of its operands.  `Defect` lists the
expressions that fold to something else than their Fortran value, and `Agrees`
is what the evaluator should do.
-/

open TwosComplement

namespace ConstEval

/-! ## The literal written for a value -/

variable {P : Processor}

/-- The suffix of an integer literal: default integers have none. -/
def kindSuffix (bytez : ℕ) : KindParam := if bytez = 4 then .default else .digits bytez

/-- The exponent letter written for a real of so many bytes. -/
def letterOf (bytez : ℕ) : ExponentLetter := if bytez = 8 then .d else .e

/-- `types.numpy_type_to_literal`, with the parentheses `const_eval_nodes` puts around a
negative literal; the parser reads the sign inside them as an operator. -/
def numpyTypeToLiteral : Scalar P → Except Raised Expr
  | .bool b => .ok (.logicalLiteral b .default)
  | .int t v =>
    let suffix := kindSuffix t.countBytes
    if v.toInt < 0 then .ok (.paren (.unary .minus (.intLiteral (-v.toInt) suffix)))
    else .ok (.intLiteral v.toInt suffix)
  | .real t x =>
    match P.write x with
    | none => .error .noMatchError
    | some d =>
      let letter := letterOf t.countBytes
      if d.negative then
        if d.digits = 0 then .error .noMatchError
        else .ok (.paren (.unary .minus (.realLiteral d.abs letter .default)))
      else .ok (.realLiteral d letter .default)

/-- **Agreement at one expression**: a returned value has the type, kind and value Fortran
gives, and so has the literal written for it. -/
def Agrees (P : Processor) (ρ : Env P) (tolerate : Bool) (e : Expr) : Prop :=
  ∀ v w, constEval P tolerate e = .ok (some v) → fortran ρ e = some w →
    v.value = w ∧ ∀ lit, numpyTypeToLiteral v = .ok lit → fortran ρ lit = some w

/-! ## Subexpressions -/

mutual

/-- The expression and all its subexpressions, those of the declarations of its names included. -/
def subs : Expr → List Expr
  | .entity d kind init => .entity d kind init :: (subs kind ++ subs init)
  | .ref x a => .ref x a :: argSubs a
  | .intLiteral n k => .intLiteral n k :: kindSubs k
  | .realLiteral n l k => .realLiteral n l k :: kindSubs k
  | .logicalLiteral b k => .logicalLiteral b k :: kindSubs k
  | .binary op l r => .binary op l r :: (subs l ++ subs r)
  | .unary op e => .unary op e :: subs e
  | .paren e => .paren e :: subs e
  | .intrinsic f a => .intrinsic f a :: argSubs a
  | e => [e]

/-- The subexpressions of a kind parameter. -/
def kindSubs : KindParam → List Expr
  | .named _ e => subs e
  | .node e => subs e
  | _ => []

/-- The subexpressions of the arguments. -/
def argSubs : Args → List Expr
  | .nil => []
  | .cons _ e rest => subs e ++ argSubs rest

end

/-! ## What the evaluator does -/

/-- Folds, is left alone, or aborts. -/
inductive Outcome where
  | value | none | raises
  deriving DecidableEq

/-- The number of an integer value. -/
def Value.number : Option (Value P) → ℤ
  | some (.int _ n) => n
  | _ => 0

/-- The number of a default-integer value. -/
def Value.int4? : Option (Value P) → Option ℤ
  | some (.int 4 n) => some n
  | _ => none

/-- `val_2_np_lit` on a value. -/
def convertOutcome : TypeSpec → Value P → Outcome
  | .integer k, .int _ n =>
    match NpInt.ofBytes? k with
    | some t => if Fits (8 * t.countBytes) n then .value else .raises
    | none => .raises
  | .real k, .int _ _ => if (NpReal.ofBytes? k).isSome then .value else .raises
  | .real k, .real _ _ => if (NpReal.ofBytes? k).isSome then .value else .raises
  | .logical none, .logical _ _ => .value
  | _, _ => .raises

/-- The spec the evaluator takes an entity to have, unless it is aborted. -/
def specOutcome (typ : TypeName) : Option (Option (Value P) × Outcome) → Option TypeSpec
  | none => some (typeWithoutKind typ)
  | some (v, .value) => some (typeWithKind (Value.number v) typ)
  | some (_, .none) => some (typeWithKind 4 typ)
  | some (_, .raises) => none

/-- The branch of `Name`. -/
def constantOutcome (tolerate : Bool) (d : Entity) (spec : TypeSpec) :
    Option (Option (Value P) × Outcome) → Outcome
  | none => .none
  | some (v, o) =>
    if !d.parameter || d.array then .none
    else
      match o with
      | .value => v.elim .raises (convertOutcome spec)
      | .none => if tolerate then .none else .raises
      | .raises => .raises

/-- The kinds hard-wired by name in `_eval_int_literal`. -/
def isoKind (name : String) : Option ℤ :=
  if name = "c_int" then some 4
  else if name = "c_double" then some 8
  else if name = "c_float" then some 4
  else none

/-- `_eval_int_literal` once the kind is known. -/
def npIntOutcome (num : ℤ) : Option ℤ → Outcome
  | none => .raises
  | some k =>
    match NpInt.ofBytes? k with
    | some t => if Fits (8 * t.countBytes) num then .value else .raises
    | none => .raises

/-- `_eval_real_literal` once the kind is known. -/
def npRealOutcome (k : ℤ) : Outcome := if (NpReal.ofBytes? k).isSome then .value else .none

/-- Whether a value is the LOGICAL `b`. -/
def Value.isLogical (b : Bool) : Option (Value P) → Bool
  | some (.logical _ c) => b == c
  | _ => false

/-- A power of integers with a negative exponent. -/
def negativePower (op : BinaryOp) (l r : Option (Value P)) : Bool :=
  match op, l, r with
  | .arith .pow, some (.int _ _), some (.int _ n) => n < 0
  | _, _, _ => false

/-- A binary node, from what its operands do and their values. -/
def binaryOutcome (op : BinaryOp) (l r : Option (Value P)) : Outcome → Outcome → Outcome
  | .raises, _ => .raises
  | _, .raises => .raises
  | .value, .value => if negativePower op l r then .raises else .value
  | .value, .none =>
    if op = .and ∧ Value.isLogical false l ∨ op = .or ∧ Value.isLogical true l then .value
    else .none
  | .none, .value =>
    if op = .and ∧ Value.isLogical false r ∨ op = .or ∧ Value.isLogical true r then .value
    else .none
  | .none, .none => .none

/-- `_eval_selected_int_kind`. -/
def selectedIntKindOutcome (r : ℤ) : Outcome :=
  if r < -323 ∨ 8 < wordBytes r then .raises else .value

/-- The number `INT` takes from a value. -/
def Value.truncated : Option (Value P) → ℤ
  | some (.real _ x) => (P.trunc x).getD 0
  | v => Value.number v

/-- `INT` of a value to a kind. -/
def intOutcome (num kind : Option (Value P)) : Outcome :=
  if Value.truncated num < 0 ∨ (NpInt.ofBytes? (Value.number kind)).isNone then .raises else .value

/-- Several arguments: all are evaluated before any is looked at. -/
def allOutcome : List Outcome → Outcome
  | [] => .value
  | .raises :: _ => .raises
  | .value :: rest => allOutcome rest
  | .none :: rest => if allOutcome rest = .raises then .raises else .none

/-- Several arguments: the first without a value ends the evaluation. -/
def firstOutcome : List Outcome → Outcome
  | [] => .value
  | .value :: rest => firstOutcome rest
  | o :: _ => o

/-- One argument: a keyword argument is not evaluated. -/
def argOutcome : Option String × Outcome → Outcome
  | (none, o) => o
  | (some _, _) => .none

/-- An intrinsic reference, from what its arguments do and their values. -/
def intrinsicOutcome (f : Intrinsic) (args : List (Option String × Option (Value P)))
    (outs : List (Option String × Outcome)) : Outcome :=
  match f with
  | .mod => allOutcome (outs.map argOutcome)
  | .modulo => allOutcome (outs.map argOutcome)
  | .int =>
    match outs, args with
    | [num, kind], [(_, n), (_, k)] =>
      if allOutcome [argOutcome kind, argOutcome num] = .value then intOutcome n k
      else allOutcome [argOutcome kind, argOutcome num]
    | num :: _, (_, n) :: _ =>
      if argOutcome num = .value then intOutcome n (some (.int 4 4)) else argOutcome num
    | _, _ => .raises
  | .selectedIntKind =>
    match outs, args with
    | [p], [(_, v)] =>
      if argOutcome p = .value then selectedIntKindOutcome (Value.number v) else argOutcome p
    | _, _ => .raises
  | .selectedRealKind =>
    if firstOutcome (outs.map Prod.snd) = .value then
      match (allValues args).bind (associate selectedRealKindNames 0 false) with
      | none => .none
      | some assoc =>
        let number name := (actual name assoc).map fun v => Value.number (some v)
        if (evalSelectedRealKind (number "P") (number "R") (number "RADIX")).isSome then .value
        else .none
    else firstOutcome (outs.map Prod.snd)
  | _ => .none

mutual

/-- What the evaluator does with an expression that has a Fortran value. -/
def outcome (ρ : Env P) (tolerate : Bool) : Expr → Outcome
  | .absent => .none
  | .null => .none
  | .external _ => .none
  | .ref _ _ => .none
  | .entity d kind init =>
    match specOutcome d.typ (kind.ifPresent (fortran ρ kind, outcome ρ tolerate kind)) with
    | none => .raises
    | some spec =>
      constantOutcome tolerate d spec (init.ifPresent (fortran ρ init, outcome ρ tolerate init))
  | .intLiteral num kind => npIntOutcome num (intLiteralKindOf ρ tolerate kind)
  | .realLiteral _ _ .default => .value
  | .realLiteral _ _ kind => realLiteralOutcome ρ tolerate kind
  | .logicalLiteral _ _ => .value
  | .hex n => npIntOutcome n (some 8)
  | .binary op l r =>
    if op = .other then .none
    else binaryOutcome op (fortran ρ l) (fortran ρ r) (outcome ρ tolerate l) (outcome ρ tolerate r)
  | .unary op e => if op = .other then .none else outcome ρ tolerate e
  | .paren e => outcome ρ tolerate e
  | .intrinsic f args => intrinsicOutcome f (fortranArgs ρ args) (argOutcomes ρ tolerate args)

/-- The kind `_eval_int_literal` takes a literal to have, unless it is aborted. -/
def intLiteralKindOf (ρ : Env P) (tolerate : Bool) : KindParam → Option ℤ
  | .default => some 4
  | .digits n => some n
  | .named name e =>
    match isoKind name with
    | some k => some k
    | none => if outcome ρ tolerate e = .value then Value.int4? (fortran ρ e) else none
  | .node _ => none

/-- `_eval_real_literal` on a literal with a kind parameter. -/
def realLiteralOutcome (ρ : Env P) (tolerate : Bool) : KindParam → Outcome
  | .named _ e =>
    if outcome ρ tolerate e = .value then (Value.int4? (fortran ρ e)).elim .none npRealOutcome
    else outcome ρ tolerate e
  | .node e =>
    if outcome ρ tolerate e = .value then
      match fortran ρ e with
      | some (.int 4 n) => npRealOutcome n
      | some (.int 8 n) => npRealOutcome n
      | _ => .none
    else outcome ρ tolerate e
  | _ => .none

/-- What the evaluator does with each argument. -/
def argOutcomes (ρ : Env P) (tolerate : Bool) : Args → List (Option String × Outcome)
  | .nil => []
  | .cons keyword e rest => (keyword, outcome ρ tolerate e) :: argOutcomes ρ tolerate rest

end

/-! ## Defects -/

/-- The operands numpy takes to `float64` and Fortran to REAL(4). -/
def Widened : Value P → Value P → Prop
  | .int k _, .real k' _ => 4 ≤ k ∧ k' = 4
  | .real k' _, .int k _ => 4 ≤ k ∧ k' = 4
  | _, _ => False

/-- A comparison whose truth differs between `float64` and REAL(4). -/
def ComparesApart (op : CmpOp) : Value P → Value P → Prop
  | .int k n, .real 4 x =>
    4 ≤ k ∧ P.cmp op (P.ofInt 8 n) (P.convert 4 8 x) ≠ P.cmp op (P.ofInt 4 n) x
  | .real 4 x, .int k n =>
    4 ≤ k ∧ P.cmp op (P.convert 4 8 x) (P.ofInt 8 n) ≠ P.cmp op x (P.ofInt 4 n)
  | _, _ => False

/-- An initial value that its decimal text does not give back in the constant's kind. -/
def TextDiffers (k : ℕ) : Value P → Prop
  | .int _ n => P.read k (.ofInt n) ≠ P.ofInt k n
  | .real k' x => (reread k x : P.R k) ≠ P.convert k' k x
  | _ => False

/-- The kind of a REAL declaration. -/
def realKindOf (ρ : Env P) (d : Entity) (kind : Expr) : ℕ :=
  if kind.isPresent then (Value.number (fortran ρ kind)).toNat
  else if d.typ = .doublePrecision then 8
  else 4

/-- The forms of expression that fold to something else than their Fortran value. -/
def Mismatch (ρ : Env P) (tolerate : Bool) : Expr → Prop
  | .entity d kind init =>
    (kind.isPresent ∧ outcome ρ tolerate kind ≠ .value ∧ Value.number (fortran ρ kind) ≠ 4) ∨
    ((d.typ = .real ∨ d.typ = .doublePrecision) ∧
      ∃ w, fortran ρ init = some w ∧ TextDiffers (realKindOf ρ d kind) w)
  | .intLiteral _ (.named name e) =>
    ∃ k, isoKind name = some k ∧ Value.number (fortran ρ e) ≠ k
  | .logicalLiteral b kind => kindParam ρ 4 kind ≠ some 4 ∨ (kind ≠ .default ∧ b = true)
  | .binary (.arith _) l r =>
    ∃ a b, fortran ρ l = some a ∧ fortran ρ r = some b ∧ Widened a b
  | .binary (.cmp op) l r =>
    ∃ a b, fortran ρ l = some a ∧ fortran ρ r = some b ∧ ComparesApart op a b
  | .intrinsic .selectedIntKind (.cons _ p _) => Value.number (fortran ρ p) < 0
  | _ => False

/-- The least integer of a kind: its magnitude is no literal of the kind. -/
def Value.IsMinimum : Value P → Prop
  | .int k n => n = -2 ^ (8 * k - 1)
  | _ => False

/-- **A defect**: the expression folds, and either to another value, or to one that cannot be
written as a literal of its kind. -/
def Defect (ρ : Env P) (tolerate : Bool) (e : Expr) : Prop :=
  outcome ρ tolerate e = .value ∧
    ∃ w, fortran ρ e = some w ∧ (Mismatch ρ tolerate e ∨ w.IsMinimum)

end ConstEval
