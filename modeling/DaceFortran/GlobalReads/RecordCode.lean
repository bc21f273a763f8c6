/-
# Code that reads and writes module records

Addresses as chains of operations from a global, an argument or elsewhere, functions with
their reads, stores and calls, and the locations an address names in an activation.  What is
stored and in which order the operations of the activations run is left open.
-/
import Mathlib.Data.List.Basic
import Mathlib.Data.Int.Notation

namespace GlobalReads

abbrev Name := List Char

/-! ## Addresses -/

/-- A subscript: a scalar value or a triplet of values. -/
inductive Subscript where
  | scalar (v : ℕ)
  | triplet (lo hi stride : ℕ)
  deriving DecidableEq

def Subscript.isTriplet : Subscript → Bool
  | .scalar _ => false
  | .triplet _ _ _ => true

/-- What defines an address.  A declare may give lower bounds; a designate takes a component, an
element or a section of one, or both, and `extra` says that it has a substring, a complex part or
type parameters, `shaped` that it has a shape.  `other` is any address that is none of these, such
as a loaded pointer. -/
inductive Address where
  | addrOf (sym : Name)
  | declare (memref : Address) (shape : Option (List ℤ))
  | convert (value : Address)
  | boxAddr (value : Address)
  | designate (memref : Address) (component : Option Name) (indices : List Subscript)
      (extra shaped : Bool)
  | arg (n : ℕ)
  | other (n : ℕ)
  deriving DecidableEq

/-! ## Functions -/

/-- A component designate with what the pass looks at: the type of its result if it is a reference,
whether that type has a name, and whether all its users are loads. -/
structure Read where
  address : Address
  refTy : Option ℕ
  named : Bool
  onlyLoads : Bool
  deriving DecidableEq

inductive Op where
  | read (r : Read)
  | store (memref : Address)
  | assign (lhs : Address)
  | call (callee : ℕ) (actuals : List Address)
  deriving DecidableEq

/-- The type of a global: its extents if it is an array, whether one is not static, the components
of its record type with their types. -/
structure Global where
  name : Name
  constant : Bool
  extents : Option (List ℕ)
  dynamic : Bool
  fields : Option (List (Name × ℕ))
  distinct : ((fields.getD []).map Prod.fst).Nodup

/-- A module; `entries` are called from outside, and a callee that is none of the functions has no
body in it. -/
structure Module where
  globals : List Global
  declared : List Name
  functions : List (List Op)
  entries : List ℕ

/-- The operations of a function. -/
def Module.ops (M : Module) (f : ℕ) : List Op := M.functions.getD f []

/-! ## Locations -/

inductive Root where
  | sym (s : Name)
  | outside (n : ℕ)
  deriving DecidableEq

/-- A component, or an element by its place from zero on in each dimension. -/
inductive Step where
  | component (c : Name)
  | element (place : List ℤ)
  deriving DecidableEq

structure Location where
  root : Root
  path : List Step
  deriving DecidableEq

/-- A store to the first location changes the second. -/
def Location.Covers (w l : Location) : Prop := w.root = l.root ∧ w.path <+: l.path

abbrev Memory := Location → ℤ

/-- An activation of a function at some moment: values by number, the locations its arguments name
and those of addresses from elsewhere. -/
structure Activation where
  env : ℕ → ℤ
  args : ℕ → Location → Prop
  others : ℕ → Location → Prop

/-- The subscript takes the index. -/
def Subscript.Takes (env : ℕ → ℤ) (i : ℤ) : Subscript → Prop
  | .scalar v => i = env v
  | .triplet lo hi stride =>
    ∃ k : ℕ, i = env lo + k * env stride ∧ if 0 < env stride then i ≤ env hi else env hi ≤ i

/-- The lower bound of each dimension, one where the address gives none. -/
def lowerBound : Address → ℕ → ℤ
  | .declare _ (some lbs), d => lbs.getD d 1
  | _, _ => 1

/-- The subscripts, from dimension `d` on, take the element at a place. -/
def TakesPlace (env : ℕ → ℤ) (lb : ℕ → ℤ) : ℕ → List Subscript → List ℤ → Prop
  | _, [], [] => True
  | d, s :: subs, i :: place => s.Takes env (i + lb d) ∧ TakesPlace env lb (d + 1) subs place
  | _, _, _ => False

/-- The steps a designate adds to a location. -/
def Steps (env : ℕ → ℤ) (lb : ℕ → ℤ) (component : Option Name) (indices : List Subscript)
    (steps : List Step) : Prop :=
  if indices = [] then steps = (component.map Step.component).toList
  else
    ∃ place, TakesPlace env lb 0 indices place ∧
      steps = (component.map Step.component).toList ++ [.element place]

/-- The locations an address names. -/
def Names (a : Activation) : Address → Location → Prop
  | .addrOf s, l => l = ⟨.sym s, []⟩
  | .declare m _, l | .convert m, l | .boxAddr m, l => Names a m l
  | .designate m c is _ _, l =>
    ∃ base steps, Names a m base ∧ Steps a.env (lowerBound m) c is steps ∧
      l = ⟨base.root, base.path ++ steps⟩
  | .arg n, l => a.args n l
  | .other n, l => a.others n l

/-! ## Executions -/

section Runs

variable (M : Module) (elsewhere : ℕ → Location → Prop)

/-- The argument locations a function is activated with: an entry gets locations outside the module,
a callee those of the actuals. -/
inductive Activated : ℕ → (ℕ → Location → Prop) → Prop
  | entry {f : ℕ} {args : ℕ → Location → Prop} : f ∈ M.entries →
      (∀ n l, args n l → ∃ k, l.root = .outside k) → Activated f args
  | call {f g : ℕ} {args : ℕ → Location → Prop} {actuals : List Address} (env : ℕ → ℤ) :
      Activated f args → Op.call g actuals ∈ M.ops f →
      Activated g fun n l => ∃ x, actuals[n]? = some x ∧ Names ⟨env, args, elsewhere⟩ x l

/-- The addresses an operation writes to itself; a callee without a body may write to all it is
given. -/
def Op.targets : Op → List Address
  | .read _ => []
  | .store m | .assign m => [m]
  | .call g actuals => if M.functions.length ≤ g then actuals else []

/-- Some activation executes the operation, with these values. -/
structure Executes (op : Op) (a : Activation) : Prop where
  fn : ∃ f, Activated M elsewhere f a.args ∧ op ∈ M.ops f
  others : a.others = elsewhere

/-- A write of anything to the locations a target names. -/
def Writes (m m' : Memory) : Prop :=
  ∃ op a t, Executes M elsewhere op a ∧ t ∈ op.targets M ∧
    ∀ l, (∀ w, Names a t w → ¬ w.Covers l) → m' l = m l

/-- The memories of an execution that starts with `m`. -/
inductive Reaches (m : Memory) : Memory → Prop
  | start : Reaches m m
  | step {m₁ m₂ : Memory} : Reaches m m₁ → Writes M elsewhere m₁ m₂ → Reaches m m₂

end Runs

end GlobalReads
