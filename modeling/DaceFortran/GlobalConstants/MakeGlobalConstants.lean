/-
# `make_practically_constant_global_vars_constants`

The pass of `ast_desugaring/optimizations.py` that turns module variables which
are initialized and never modified into `PARAMETER`s: the scan for variables that
may be modified, and the surgery on their declarations.
-/
import DaceFortran.Procedures.Run
import Mathlib.Data.List.Infix

open Procedures

namespace GlobalConstants

/-! ## Specification parts -/

/-- An `Entity_Decl`: `uses` are the names its shape, length and initialization refer to. -/
structure Entity where
  name : String
  shape : Option String
  init : Bool
  uses : List String
  deriving DecidableEq

/-- A `Type_Declaration_Stmt`: the type, the attributes (upper case), the entities, and the
names that the type and the attributes refer to. -/
structure Declaration where
  typ : String
  attrs : List String
  entities : List Entity
  uses : List String
  deriving DecidableEq

/-- A statement of a specification part: a declaration, or another one with the names it
refers to. -/
inductive SpecItem where
  | decl (d : Declaration)
  | other (uses : List String)
  deriving DecidableEq

/-- A module with its specification part. -/
structure Module where
  name : String
  items : List SpecItem
 

/-- A program: its modules and its executable side. -/
structure Program (L : Type) where
  modules : List Module
  procedures : List (Procedure L)
  main : Stmt L
  nullable : Expr L → Bool

/-- The entities a statement declares. -/
def SpecItem.entities : SpecItem → List Entity
  | .decl d => d.entities
  | .other _ => []

/-- The names a module declares. -/
def Module.names (m : Module) : List String :=
  m.items.flatMap fun item => item.entities.map Entity.name

/-- The variables and constants of the modules. -/
def Program.moduleEntities {L : Type} (p : Program L) : List Spec :=
  p.modules.flatMap fun m => m.names.map fun x => [m.name, x]

/-- The executable side. -/
def Program.code {L : Type} (p : Program L) : Code L where
  procedures := p.procedures
  main := p.main
  moduleVariables := p.moduleEntities
  nullable := p.nullable

/-! ## The scan -/

/-- How the pass is aborted. -/
inductive Raised where
  | assertionError
  deriving DecidableEq

/-- Whether `"PARAMETER"` occurs in a text. -/
def mentionsParameter (text : String) : Bool := "PARAMETER".toList <:+: text.toList

/-- `"PARAMETER" in f"{attr}"`. -/
def hasParameter (attrs : List String) : Bool := attrs.any mentionsParameter

/-- `TYPE_SPEC.const`: the attributes are searched with the shape. -/
def isConst (d : Declaration) (e : Entity) : Bool :=
  hasParameter (d.attrs ++ e.shape.toList)

/-- The candidates of one statement. -/
def SpecItem.candidates : SpecItem → List String
  | .decl d => (d.entities.filter fun e => !isConst d e).map Entity.name
  | .other _ => []

variable {L : Type}

/-- `never_assigned` at first: the module variables that are no constants. -/
def candidates (p : Program L) : List Spec :=
  p.modules.flatMap fun m =>
    (m.items.flatMap SpecItem.candidates).map fun x => [m.name, x]

/-- `never_assigned.discard`. -/
def discard (s : Spec) (l : List Spec) : List Spec := l.filter (· ≠ s)

/-- One assignment of the first loop. -/
def scanAssignment (l : List Spec) : Expr L → Except Raised (List Spec)
  | .name ⟨_, some (.entity s)⟩ => .ok (discard s l)
  | .name ⟨_, some (.external s)⟩ => .ok (discard s l)
  | .name ⟨_, some (.function _)⟩ => .ok l
  | .name _ => .error .assertionError
  -- everything else is unsupported for now
  | _ => .ok l

/-- One argument of the second loop; `tolerate` is `OPTIONS.tolerate_external_uses`. -/
def scanArgument (tolerate : Bool) (l : List Spec) :
    Option String × Expr L → Except Raised (List Spec)
  | (none, .name ⟨_, some (.entity s)⟩) => .ok (discard s l)
  | (none, .name ⟨_, some (.external s)⟩) => .ok (discard s l)
  | (none, .name ⟨_, none⟩) => if tolerate then .ok l else .error .assertionError
  | (none, .name _) => .error .assertionError
  -- everything else is unsupported for now
  | _ => .ok l

/-- The variables that the two loops leave. -/
def neverAssigned (tolerate : Bool) (p : Program L) : Except Raised (List Spec) := do
  let l ← p.code.assignments.foldlM scanAssignment (candidates p)
  let args := (p.code.calls.filter Call.walked).flatMap fun c => c.args.toList
  args.foldlM (scanArgument tolerate) l

/-! ## The surgery -/

/-- A node of a specification part: a statement it had, by its position, or a new one. -/
inductive Node where
  | original (i : ℕ)
  | fresh (d : Declaration)
  deriving DecidableEq

/-- A specification part being changed: its nodes, and the entity list of each statement it
had, whether that is still in the tree or not. -/
structure Part where
  nodes : List Node
  lists : ℕ → List Entity

/-- The statement at a position. -/
def Module.item (m : Module) (i : ℕ) : SpecItem := (m.items[i]?).getD (.other [])

/-- The specification part as it was parsed. -/
def Module.part (m : Module) : Part where
  nodes := (List.range m.items.length).map .original
  lists i := (m.item i).entities

/-- The position of the declaration of a name. -/
def Module.position (m : Module) (x : String) : Option ℕ :=
  m.items.findIdx? fun item => x ∈ item.entities.map Entity.name

/-- `utils.replace_node`: nothing happens when the node is no longer in the tree. -/
def replaceNode (i : ℕ) (d : Declaration) (nodes : List Node) : List Node :=
  nodes.map fun n => if n = .original i then .fresh d else n

/-- The attributes of the constant. -/
def nuattr (attrs : List String) : List String :=
  if hasParameter attrs then attrs else attrs ++ ["PARAMETER"]

/-- The declaration of a constant. -/
def Declaration.constant (d : Declaration) (entities : List Entity) : Declaration :=
  { d with attrs := nuattr d.attrs, entities }

/-- One round of the last loop: entity `e` of declaration `d` at position `i`. -/
def Part.fixEntity (part : Part) (i : ℕ) (d : Declaration) (e : Entity) : Part :=
  let edclist := part.lists i
  if edclist.length = 1 then
    { part with nodes := replaceNode i (d.constant edclist) part.nodes }
  else
    let rest := edclist.filter (· ≠ e)
    { nodes := replaceNode i (d.constant [e]) part.nodes ++ [.fresh { d with entities := rest }]
      lists := fun j => if j = i then rest else part.lists j }

/-- One round of the last loop: the variable named `x`. -/
def Module.fix (m : Module) (part : Part) (x : String) : Part :=
  match m.position x with
  | none => part
  | some i =>
    match m.item i with
    | .other _ => part
    | .decl d =>
      match d.entities.find? fun e => e.name = x with
      | none => part
      | some e =>
        -- without an initialization it cannot be fixed
        if e.init then part.fixEntity i d e else part

/-- The variables of a module among the specs, in their order. -/
def Module.own (m : Module) (order : List Spec) : List String :=
  order.filterMap fun s =>
    match s with
    | [n, x] => if n = m.name then some x else none
    | _ => none

/-- The last loop on one module; no round on a variable of another changes it. -/
def Module.fixAll (m : Module) (order : List Spec) : Part := (m.own order).foldl m.fix m.part

/-- The statement a node stands for. -/
def Part.statement (m : Module) (part : Part) : Node → SpecItem
  | .original i =>
    match m.item i with
    | .decl d => .decl { d with entities := part.lists i }
    | .other uses => .other uses
  | .fresh d => .decl d

/-- The specification part that a module ends with. -/
def Module.result (m : Module) (order : List Spec) : List SpecItem :=
  (m.fixAll order).nodes.map ((m.fixAll order).statement m)

/-- **`make_practically_constant_global_vars_constants`**: the modules after the pass, for an
order in which the set `never_assigned` may be enumerated. -/
def makeGlobalConstants (p : Program L) (order : List Spec) : List Module :=
  p.modules.map fun m => ⟨m.name, m.result order⟩

/-! ## What the pass should do -/

/-- The pass turns the variable into a constant. -/
def Turned (p : Program L) (order : List Spec) (v : Spec) : Prop :=
  ∃ m ∈ p.modules, ∃ x, v = [m.name, x] ∧
    (∃ d e, SpecItem.decl d ∈ m.items ∧ e ∈ d.entities ∧ e.name = x ∧ ¬isConst d e) ∧
    ∃ d e, SpecItem.decl d ∈ m.result order ∧ e ∈ d.entities ∧ e.name = x ∧ hasParameter d.attrs

/-- What a reader of a specification part meets. -/
inductive Event where
  | use (x : String)
  | declare (x : String)
  deriving DecidableEq

/-- An entity refers to names and is declared. -/
def Entity.events (e : Entity) : List Event := e.uses.map .use ++ [.declare e.name]

/-- The events of a statement. -/
def SpecItem.events : SpecItem → List Event
  | .decl d => d.uses.map .use ++ d.entities.flatMap Entity.events
  | .other uses => uses.map .use

/-- A name is declared exactly once, before its uses. -/
structure DeclaredBeforeUses (items : List SpecItem) (x : String) : Prop where
  once : (items.flatMap SpecItem.events).count (.declare x) = 1
  before : ∀ pre post, items.flatMap SpecItem.events = pre ++ .use x :: post → .declare x ∈ pre

/-- An entity of a declaration keeps its declaration: its type, its attributes and its place
before its uses. -/
def KeepsDeclaration (items : List SpecItem) (d : Declaration) (e : Entity) : Prop :=
  DeclaredBeforeUses items e.name ∧
    ∃ d', SpecItem.decl d' ∈ items ∧ e ∈ d'.entities ∧ d'.typ = d.typ ∧ d'.attrs = d.attrs

/-- The declaration is split: one of its entities is fixed and it has others. -/
def Split (m : Module) (order : List Spec) (d : Declaration) : Prop :=
  1 < d.entities.length ∧ ∃ e ∈ d.entities, e.init ∧ [m.name, e.name] ∈ order

/-- **What the pass should do**: no run changes a variable that is turned into a constant, and
the other entities of a split declaration keep theirs. -/
structure Sound (V : Type) (lit : L → V) (p : Program L) (order : List Spec) : Prop where
  unchanged : ∀ v, Turned p order v → ∀ st₀ st : State L V, Initial p.code st₀ →
    Relation.ReflTransGen (Step p.code lit) st₀ st → st.store (.global v) = st₀.store (.global v)
  declared : ∀ m ∈ p.modules, ∀ d e, SpecItem.decl d ∈ m.items → e ∈ d.entities →
    Split m order d → ¬Turned p order [m.name, e.name] → KeepsDeclaration (m.result order) d e

end GlobalConstants
