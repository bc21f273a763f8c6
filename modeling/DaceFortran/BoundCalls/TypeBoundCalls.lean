/-
# `deconstruct_procedure_calls`

A call `obj%b(args)` becomes a call of the procedure that `b` names in the declared type of
`obj`, with `obj` in front of the arguments.  The tables are keyed by the type that has a
binding; an inherited one is found over `alias_specs`, which copies the members of a type to the
types that extend it.
-/
import Mathlib.Data.List.FinRange

namespace BoundCalls

/-- Which dummy argument has the object. -/
inductive Pass (Name : Type) where
  | first
  | named (x : Name)
  | nopass
deriving DecidableEq

/-- `PROCEDURE [, attributes] :: binding [=> proc]` -/
structure SpecificBinding (Name : Type) where
  proc : Option Name
  pass : Pass Name
  deferred : Bool

/-- A derived type with its own bindings by their names. -/
structure TypeDef (Name : Type) (n : ℕ) where
  module : Name
  parent : Option (Fin n)
  specific : Name → Option (SpecificBinding Name)
  generic : Name → Option (List Name)

/-- The derived types in the order of their definitions: a type extends an earlier one. -/
structure Hierarchy (Name : Type) (n : ℕ) where
  types : Fin n → TypeDef Name n
  extended : ∀ t u, (types t).parent = some u → u < t

/-- An actual argument with its keyword and its type. -/
structure Actual (Name Sig : Type) where
  keyword : Option Name
  sig : Sig

/-- A dummy argument. -/
structure Dummy (Name Sig : Type) where
  name : Name
  sig : Sig
  optional : Bool

/-- A procedure by its dummy arguments, with an identity. -/
structure Procedure (Name Sig : Type) where
  id : ℕ
  dummies : List (Dummy Name Sig)

/-- What a program has beside its types: the procedures that names stand for in modules, and the
ones among them that have a source. -/
structure Procedures (Name Sig : Type) where
  denotes : Name × Name → Option (Procedure Name Sig)
  known : Name × Name → Bool

/-- A call `obj%b(args)`: where it stands, the names that are declared there below the module, the
declared type of the object, the types that it has in the executions, and the specific binding that
Fortran resolves `b` to. -/
structure Call (Name Sig : Type) (n : ℕ) where
  enclosing : Name
  localNames : List Name
  declared : Fin n
  dynamic : Fin n → Prop
  binding : Name
  resolved : Name
  args : List (Actual Name Sig)

variable {Name Sig : Type} [DecidableEq Name] {n : ℕ}

/-! ## The tables -/

namespace Hierarchy

variable (H : Hierarchy Name n)

/-- The type has a binding of this name of its own. -/
def own (t : Fin n) (b : Name) : Bool :=
  ((H.types t).specific b).isSome || ((H.types t).generic b).isSome

/-- One turn of the loop of `alias_specs` over the types: the members of the parent that are not
redefined. -/
def extend (aliases : Fin n → Name → Option (Fin n)) (t : Fin n) : Fin n → Name → Option (Fin n) :=
  fun t' b =>
  if t' = t then (aliases t b).or ((H.types t).parent.bind fun u => aliases u b) else aliases t' b

/-- `alias_specs` for bindings: the type whose own binding a name is in a type. -/
def aliasSpecs : Fin n → Name → Option (Fin n) :=
  (List.finRange n).foldl H.extend fun t b => if H.own t b then some t else none

/-- `procedure_specs` -/
def procedureSpecs (tb : Fin n × Name) : Option (Name × Name) :=
  ((H.types tb.1).specific tb.2).map fun s => ((H.types tb.1).module, s.proc.getD tb.2)

/-- `generic_specs` -/
def genericSpecs (tb : Fin n × Name) : Option (List (Fin n × Name)) :=
  ((H.types tb.1).generic tb.2).map fun names => names.map fun x => (tb.1, x)

end Hierarchy

/-! ## `does_type_signature_match` -/

/-- `does_type_signature_match`, for `_does_part_matches` of two types. -/
def signatureMatches (partMatches : Sig → Sig → Bool) (got : List (Actual Name Sig))
    (cand : List (Dummy Name Sig)) :
    Bool :=
  let pos := got.filter fun a => a.keyword.isNone
  let kwd := got.filter fun a => a.keyword.isSome
  let candKwd := cand.drop pos.length
  if cand.length < got.length then false
  else
    ((cand.take pos.length).zip pos).all (fun cg => partMatches cg.2.sig cg.1.sig) &&
      kwd.all (fun g => match candKwd.find? fun c => some c.name = g.keyword with
        | some c => partMatches g.sig c.sig
        | none => false) &&
      candKwd.all fun c => c.optional || match kwd.find? fun g => g.keyword = some c.name with
        | some g => partMatches g.sig c.sig
        | none => false

/-! ## The pass -/

/-- What becomes of a call. -/
inductive Rewritten (Name : Type) where
  | raised
  | left
  | direct (proc : Name × Name)
deriving DecidableEq

section

variable (H : Hierarchy Name n) (procs : Procedures Name Sig) (partMatches : Sig → Sig → Bool)
    (tolerate : Bool)

/-- A candidate of a generic binding, looked up in the declared type. -/
def candidateOf (declared : Fin n) (cand : Fin n × Name) : Fin n × Name :=
  let rcand := (declared, cand.2)
  let rcand := match H.procedureSpecs rcand with
    | some _ => rcand
    | none => match H.aliasSpecs declared cand.2 with
      | some t => (t, cand.2)
      | none => rcand
  match H.procedureSpecs rcand with
  | some _ => rcand
  | none => cand

/-- The loop over the candidates of a generic binding: the first one whose signature matches, if
there is one. -/
def chooseCandidate (declared : Fin n) (args : List (Actual Name Sig)) :
    List (Fin n × Name) → Option (Option (Fin n × Name))
  | [] => some none
  | cand :: cands =>
    match H.procedureSpecs (candidateOf H declared cand) with
    | none => if tolerate then chooseCandidate declared args cands else none
    | some spec =>
      match procs.known spec, procs.denotes spec with
      | true, some p =>
        -- the passed object is taken to be the first dummy argument
        if signatureMatches partMatches args
          (p.dummies.drop 1) then some (some (candidateOf H declared cand))
        else chooseCandidate declared args cands
      | _, _ => if tolerate then chooseCandidate declared args cands else none

/-- The key of the binding of a call: the type's own, or that of the type that it is inherited
from. -/
def bindingSpec (c : Call Name Sig n) : Fin n × Name :=
  if H.own c.declared c.binding then (c.declared, c.binding)
  else match H.aliasSpecs c.declared c.binding with
    | some t => (t, c.binding)
    | none => (c.declared, c.binding)

/-- `deconstruct_procedure_calls` of one call. -/
def deconstructCall (c : Call Name Sig n) : Rewritten Name :=
  let bspec := bindingSpec H c
  let chosen := match H.genericSpecs bspec with
    | some cands => (chooseCandidate H procs partMatches tolerate c.declared c.args cands).map
        fun o => o.getD bspec
    | none => some bspec
  match chosen with
  | none => .raised
  | some bspec =>
    match H.procedureSpecs bspec with
    | none => if tolerate then .left else .raised
    | some spec => if tolerate && !procs.known spec then .left else .direct spec

end

/-! ## What a call does -/

/-- The nearest type with a specific binding of a name, from a type on. -/
def Hierarchy.nearest (H : Hierarchy Name n) (t : Fin n) (b : Name) :
    Option (Fin n × SpecificBinding Name) :=
  match (H.types t).specific b with
  | some s => some (t, s)
  | none =>
    match h : (H.types t).parent with
    | some u =>
      have : u < t := H.extended t u h
      H.nearest u b
    | none => none
termination_by t.val

/-- What a dummy argument is associated with. -/
inductive Associated where
  | object
  | arg (i : ℕ)
deriving DecidableEq

/-- The actual arguments on the dummy arguments: the positional ones in order, the others by their
keywords. -/
def associate (dummies : List Name) (positional : List Associated)
    (keywords : List (Name × Associated)) :
    Option (Name → Option Associated) :=
  if dummies.length < positional.length then none
  else some fun x => ((dummies.zip positional).lookup x).or (keywords.lookup x)

namespace Call

variable (c : Call Name Sig n)

/-- The arguments without keywords. -/
def positional : List Associated :=
  (c.args.zipIdx.filter fun a => a.1.keyword.isNone).map fun a => .arg a.2

/-- The arguments with keywords. -/
def keywords : List (Name × Associated) :=
  c.args.zipIdx.filterMap fun a => a.1.keyword.map fun x => (x, .arg a.2)

end Call

/-- The dummy argument that has the object. -/
def Pass.dummy (pass : Pass Name) (dummies : List Name) : Option Name :=
  match pass with
  | .first => dummies.head?
  | .named x => some x
  | .nopass => none

/-- **The call of Fortran**: the procedure that the dynamic type's binding has, the object on its
passed-object dummy argument and the arguments on the others. -/
def fortranCall (H : Hierarchy Name n) (procs : Procedures Name Sig)
    (c : Call Name Sig n) (t : Fin n) :
    Option (ℕ × (Name → Option Associated)) := do
  let (u, s) ← H.nearest t c.resolved
  if s.deferred then none
  let p ← procs.denotes ((H.types u).module, s.proc.getD c.resolved)
  let dummies := p.dummies.map Dummy.name
  match s.pass.dummy dummies with
  | none => (associate dummies c.positional c.keywords).map fun a => (p.id, a)
  | some x => (associate (dummies.erase x) c.positional c.keywords).map fun a =>
      (p.id, fun y => if y = x then some .object else a y)

/-- The direct call: the procedure's name is taken where the call stands, or over a `USE` with a new
name if it is one of another module, and the object is the first argument. -/
def directCall (procs : Procedures Name Sig) (c : Call Name Sig n) (spec : Name × Name) :
    Option (ℕ × (Name → Option Associated)) := do
  if spec.1 = c.enclosing ∧ spec.2 ∈ c.localNames then none
  let p ← procs.denotes spec
  (associate (p.dummies.map Dummy.name) (.object :: c.positional) c.keywords).map fun a => (p.id, a)

/-- **The direct call does what the call did**, in every execution: the same procedure with the same
arguments on the same dummy arguments. -/
def KeepsCall (H : Hierarchy Name n) (procs : Procedures Name Sig) (c : Call Name Sig n)
    (spec : Name × Name) : Prop :=
  ∀ t, c.dynamic t → ∃ p a a', fortranCall H procs c t = some (p, a) ∧
    directCall procs c spec = some (p, a') ∧
    ∀ x, a x = a' x

end BoundCalls
