/-
# Objects and the code that names them

A program as `prune_unused_objects` sees it (ast_desugaring/pruning.py): the
statements in source order, each with the scope it stands in and with what it
names.  Names are resolved: an occurrence is the spec of the declaration it
denotes, as `alias_specs` finds it, and names that denote no object (keywords,
component selectors) are left out.  Component references and the components
that structure constructors supply are specs of component declarations,
inherited ones included.  An interface block is the list of the procedures it
names; interface bodies are left out.
-/
import Mathlib.Tactic
import DaceFortran.Lib.Visit

namespace Pruning

/-- The path of names that identifies an object. -/
abbrev Spec := List String

/-- The equality of paths, under a name of its own. -/
scoped instance lawfulSpec : LawfulBEq (List String) := List.instLawfulBEq

/-- A structure constructor: its type, how many components it supplies by
position, and which by keyword. -/
structure Constructor where
  type : Spec
  positional : ℕ
  keywords : List Spec
  deriving DecidableEq

/-- What a piece of code refers to: the objects its names denote, the components
its references touch, and its structure constructors. -/
structure Refs where
  names : List Spec
  comps : List Spec
  constructors : List Constructor
  deriving DecidableEq

/-- What a statement that opens a scope declares. -/
inductive Kind where
  | module
  | interface
  | program
  | subroutine (dummies : List String)
  | function (dummies : List String) (result : String)
  | derivedType (parent : Option Spec)
  deriving DecidableEq

/-- A declared variable or component, with what its shape and initial value refer to. -/
structure Entity where
  name : String
  refs : Refs
  deriving DecidableEq

/-- A statement. -/
inductive Item where
  /-- The statement that opens the scope `spec`. -/
  | opens (spec : Spec) (kind : Kind) (refs : Refs)
  /-- A type declaration statement, or a component definition statement. -/
  | decl (scope : Spec) (component pointer : Bool) (type : Refs) (entities : List Entity)
  /-- A pointer assignment to the bare name `lhs`: whether it is the action of an `IF`
  statement, and whether its target is a function reference. -/
  | pointerAssign (scope : Spec) (lhs : Spec) (ifAction calls : Bool) (refs : Refs)
  /-- An `EQUIVALENCE` statement, as pairs of variables. -/
  | equivalence (scope : Spec) (pairs : List (Spec × Spec))
  /-- Any other statement. -/
  | stmt (scope : Spec) (refs : Refs)
  deriving DecidableEq

/-- A program: its statements in source order. -/
structure Program where
  items : List Item

/-! ## Scopes and names -/

/-- The scope a statement stands in; an opening statement stands in its own. -/
def Item.scope : Item → Spec
  | .opens spec _ _ => spec
  | .decl scope _ _ _ _ => scope
  | .pointerAssign scope _ _ _ _ => scope
  | .equivalence scope _ => scope
  | .stmt scope _ => scope

/-- The specs a statement declares. -/
def Item.declared : Item → List Spec
  | .opens spec _ _ => [spec]
  | .decl scope _ _ _ entities => entities.map (fun e => scope ++ [e.name])
  | _ => []

/-- What a statement refers to; the declared entities refer on their own. -/
def Item.refs : Item → Refs
  | .opens _ _ refs => refs
  | .decl _ _ _ type _ => type
  | .pointerAssign _ _ _ _ refs => refs
  | .equivalence _ pairs => ⟨pairs.flatMap (fun q => [q.1, q.2]), [], []⟩
  | .stmt _ refs => refs

/-- The entities a statement declares. -/
def Item.entities : Item → List Entity
  | .decl _ _ _ _ entities => entities
  | _ => []

/-- The pointer a statement assigns. -/
def Item.lhs : Item → Option Spec
  | .pointerAssign _ lhs _ _ _ => some lhs
  | _ => none

/-- All that is referred to in a statement. -/
def Item.allRefs (i : Item) : List Refs := i.refs :: i.entities.map Entity.refs

/-- The program declares the object. -/
def Program.Declares (p : Program) (s : Spec) : Prop := ∃ i ∈ p.items, s ∈ i.declared

instance (p : Program) (s : Spec) : Decidable (p.Declares s) := by
  unfold Program.Declares
  infer_instance

/-- The statement that declares the object. -/
def Program.declaration (p : Program) (s : Spec) : Option Item :=
  p.items.find? (fun i => decide (s ∈ i.declared))

/-- A kind of scope that can be pruned. -/
def Kind.prunable : Kind → Bool
  | .module => false
  | .interface => false
  | _ => true

/-- `PRUNABLE_OBJECT_CLASSES`. -/
def Item.prunable : Item → Bool
  | .opens _ kind _ => kind.prunable
  | .decl _ _ _ _ _ => true
  | _ => false

/-- The object can be pruned. -/
def Program.prunable (p : Program) (s : Spec) : Bool :=
  (p.declaration s).any Item.prunable

/-- The dummy arguments of a scope. -/
def Kind.dummies : Kind → List String
  | .subroutine dummies => dummies
  | .function dummies _ => dummies
  | _ => []

/-- The dummy arguments of the subprogram that opens the scope. -/
def Program.dummies (p : Program) (scope : Spec) : List String :=
  match p.declaration scope with
  | some (.opens _ kind _) => kind.dummies
  | _ => []

/-- The parent a derived type extends. -/
def Program.parent (p : Program) (type : Spec) : Option Spec :=
  p.items.findSome? (fun i =>
    match i with
    | .opens s (.derivedType (some parent)) _ => if s = type then some parent else none
    | _ => none)

/-- The components a statement declares in a type. -/
def Item.componentsOf (type : Spec) : Item → List Spec
  | .decl scope true _ _ entities =>
      if scope = type then entities.map (fun e => scope ++ [e.name]) else []
  | _ => []

/-- The components of a derived type in order, inherited ones first; `depth`
bounds the chain of parents. -/
def Program.components (p : Program) : ℕ → Spec → List Spec
  | 0, _ => []
  | depth + 1, type =>
      ((p.parent type).elim [] (p.components depth)) ++
        p.items.flatMap (Item.componentsOf type)

/-- The statement with only some of its entities. -/
def Item.restrict (keep : Entity → Bool) : Item → Item
  | .decl scope component pointer type entities =>
      .decl scope component pointer type (entities.filter keep)
  | i => i

/-- The object is declared as it was in `p`: by the same statement, up to the
other entities it declares. -/
def Program.Keeps (p q : Program) (s : Spec) : Prop :=
  ∃ i ∈ p.items, ∃ keep, i.restrict keep ∈ q.items ∧ s ∈ (i.restrict keep).declared

/-- The variables share storage. -/
def Program.Storage (p : Program) : Spec → Spec → Prop :=
  Relation.EqvGen (fun a b => ∃ scope pairs, .equivalence scope pairs ∈ p.items ∧ (a, b) ∈ pairs)

/-! ## Well-formed programs -/

/-- An object is a component. -/
def Program.Component (p : Program) (s : Spec) : Prop :=
  ∃ scope pointer type entities, .decl scope true pointer type entities ∈ p.items ∧
    s ∈ (Item.decl scope true pointer type entities).declared

/-- A scope other than a module. -/
def Program.Inner (p : Program) (s : Spec) : Prop :=
  ∃ kind refs, .opens s kind refs ∈ p.items ∧ kind ≠ .module

/-- A program whose names are resolved: declarations are unique and stand in
nested scopes, names denote objects that are not components, references and
constructors denote components, a type names its parent, and what is local to a
procedure, a type or an interface is named inside it only. -/
structure Program.WellFormed (p : Program) : Prop where
  unique : (p.items.flatMap Item.declared).Nodup
  opened : ∀ i ∈ p.items, ∃ kind refs, .opens i.scope kind refs ∈ p.items
  scopes : ∀ s kind refs, .opens s kind refs ∈ p.items → ∀ a, a <+: s → p.Declares a →
    ∃ kind' refs', .opens a kind' refs' ∈ p.items
  interfaces : ∀ s refs, .opens s .interface refs ∈ p.items → ∀ i ∈ p.items, s <+: i.scope →
    i.scope = s ∧ i.entities = []
  components : ∀ scope pointer type entities, .decl scope true pointer type entities ∈ p.items →
    ∃ parent refs, .opens scope (.derivedType parent) refs ∈ p.items
  parents : ∀ s parent refs, .opens s (.derivedType (some parent)) refs ∈ p.items →
    parent ∈ refs.names
  names : ∀ i ∈ p.items, ∀ r ∈ i.allRefs, ∀ n ∈ r.names, p.Declares n ∧ ¬ p.Component n
  comps : ∀ i ∈ p.items, ∀ r ∈ i.allRefs, ∀ c ∈ r.comps, p.Component c
  constructed : ∀ i ∈ p.items, ∀ r ∈ i.allRefs, ∀ k ∈ r.constructors, k.type ∈ r.names
  keywords : ∀ i ∈ p.items, ∀ r ∈ i.allRefs, ∀ k ∈ r.constructors, ∀ c ∈ k.keywords, p.Component c
  lhs : ∀ i ∈ p.items, ∀ x ∈ i.lhs, p.Declares x ∧ ¬ p.Component x
  local_names : ∀ i ∈ p.items, ∀ r ∈ i.allRefs, ∀ n ∈ r.names, ∀ a, a <+: n → a ≠ n →
    p.Inner a → a <+: i.scope
  local_lhs : ∀ i ∈ p.items, ∀ x ∈ i.lhs, ∀ a, a <+: x → a ≠ x → p.Inner a → a <+: i.scope

/-! ### The check -/

/-- The statement opens the scope. -/
def Item.opensScope (s : Spec) : Item → Bool
  | .opens t _ _ => decide (t = s)
  | _ => false

/-- The statement opens the scope, which is no module. -/
def Item.opensInner (s : Spec) : Item → Bool
  | .opens t kind _ => decide (t = s) && decide (kind ≠ .module)
  | _ => false

/-- The statement opens the scope of a derived type. -/
def Item.opensType (s : Spec) : Item → Bool
  | .opens t (.derivedType _) _ => decide (t = s)
  | _ => false

/-- The statement declares the object as a component. -/
def Item.declaresComponent (s : Spec) : Item → Bool
  | .decl scope true pointer type entities =>
      decide (s ∈ (Item.decl scope true pointer type entities).declared)
  | _ => false

/-- What is asked of a single statement. -/
def Program.checkItem (p : Program) (i : Item) : Bool :=
  p.items.any (Item.opensScope i.scope) &&
    i.scope.inits.all (fun a => !decide (p.Declares a) || p.items.any (Item.opensScope a)) &&
    (match i with
      | .opens s .interface _ => p.items.all (fun j =>
          !decide (s <+: j.scope) || decide (j.scope = s ∧ j.entities = []))
      | .opens _ (.derivedType (some parent)) refs => decide (parent ∈ refs.names)
      | .decl scope true _ _ _ => p.items.any (Item.opensType scope)
      | _ => true) &&
    i.allRefs.all (fun r =>
      r.names.all (fun n => decide (p.Declares n) && !p.items.any (Item.declaresComponent n) &&
        n.inits.all (fun a => decide (a = n) || !p.items.any (Item.opensInner a) ||
          decide (a <+: i.scope))) &&
      r.comps.all (fun c => p.items.any (Item.declaresComponent c)) &&
      r.constructors.all (fun k => decide (k.type ∈ r.names) &&
        k.keywords.all (fun c => p.items.any (Item.declaresComponent c)))) &&
    i.lhs.all (fun x => decide (p.Declares x) && !p.items.any (Item.declaresComponent x) &&
      x.inits.all (fun a => decide (a = x) || !p.items.any (Item.opensInner a) ||
        decide (a <+: i.scope)))

/-- The check of a program. -/
def Program.check (p : Program) : Bool :=
  decide (p.items.flatMap Item.declared).Nodup && p.items.all p.checkItem

variable {p : Program}

theorem any_opensScope {s : Spec} :
    p.items.any (Item.opensScope s) = true ↔ ∃ kind refs, .opens s kind refs ∈ p.items := by
  rw [List.any_eq_true]
  constructor
  · rintro ⟨i, hi, h⟩
    cases i <;> simp only [Item.opensScope, decide_eq_true_eq, Bool.false_eq_true] at h
    exact ⟨_, _, h ▸ hi⟩
  · rintro ⟨kind, refs, hi⟩
    exact ⟨_, hi, by simp [Item.opensScope]⟩

theorem any_opensInner {s : Spec} : p.items.any (Item.opensInner s) = true ↔ p.Inner s := by
  rw [List.any_eq_true]
  constructor
  · rintro ⟨i, hi, h⟩
    cases i <;> simp only [Item.opensInner, Bool.and_eq_true, decide_eq_true_eq,
      Bool.false_eq_true] at h
    exact ⟨_, _, h.1 ▸ hi, h.2⟩
  · rintro ⟨kind, refs, hi, hne⟩
    exact ⟨_, hi, by simpa [Item.opensInner] using hne⟩

theorem any_declaresComponent {s : Spec} :
    p.items.any (Item.declaresComponent s) = true ↔ p.Component s := by
  rw [List.any_eq_true]
  constructor
  · rintro ⟨i, hi, h⟩
    cases i with
    | decl scope component pointer type entities =>
        cases component with
        | false => simp [Item.declaresComponent] at h
        | true => exact ⟨scope, pointer, type, entities,
            hi, by simpa [Item.declaresComponent] using h⟩
    | _ => simp [Item.declaresComponent] at h
  · rintro ⟨scope, pointer, type, entities, hi, hs⟩
    exact ⟨_, hi, by simpa [Item.declaresComponent] using hs⟩

/-- **A program that passes the check is well formed.** -/
theorem wellFormed_of_check (h : p.check = true) : p.WellFormed := by
  simp only [Program.check, Bool.and_eq_true, decide_eq_true_eq, List.all_eq_true] at h
  obtain ⟨hnodup, hall⟩ := h
  simp only [Program.checkItem, Bool.and_eq_true, List.all_eq_true, Bool.or_eq_true,
    Bool.not_eq_true', decide_eq_true_eq, List.mem_inits,
    Option.all_eq_true, any_opensScope, any_declaresComponent, ← Bool.not_eq_true,
    any_opensInner] at hall
  constructor
  case unique => exact hnodup
  case opened => exact fun i hi => (hall i hi).1.1.1.1
  case scopes =>
    intro s kind refs hi a hpre hd
    rcases (hall _ hi).1.1.1.2 a hpre with hn | hopen
    · exact absurd hd hn
    · exact hopen
  case interfaces =>
    intro s refs hi j hj hpre
    have := (hall _ hi).1.1.2
    simp only [List.all_eq_true, Bool.or_eq_true, Bool.not_eq_true', decide_eq_false_iff_not,
      decide_eq_true_eq] at this
    rcases this j hj with hn | hj
    · exact absurd hpre hn
    · exact hj
  case components =>
    intro scope pointer type entities hi
    have := (hall _ hi).1.1.2
    obtain ⟨j, hj, h⟩ := List.any_eq_true.mp this
    cases j with
    | opens s kind refs =>
        cases kind <;> simp only [Item.opensType, decide_eq_true_eq, Bool.false_eq_true] at h
        exact ⟨_, _, h ▸ hj⟩
    | _ => simp [Item.opensType] at h
  case parents =>
    intro s parent refs hi
    simpa using (hall _ hi).1.1.2
  case names =>
    intro i hi r hr n hn
    exact ((hall i hi).1.2 r hr).1.1 n hn |>.1
  case comps => exact fun i hi r hr c hc => ((hall i hi).1.2 r hr).1.2 c hc
  case constructed => exact fun i hi r hr k hk => (((hall i hi).1.2 r hr).2 k hk).1
  case keywords => exact fun i hi r hr k hk c hc => (((hall i hi).1.2 r hr).2 k hk).2 c hc
  case lhs => exact fun i hi x hx => ((hall i hi).2 x hx).1
  case local_names =>
    intro i hi r hr n hn a hpre hne hin
    rcases (((hall i hi).1.2 r hr).1.1 n hn).2 a hpre with (heq | hn) | hpre
    · exact absurd heq hne
    · exact absurd hin hn
    · exact hpre
  case local_lhs =>
    intro i hi x hx a hpre hne hin
    rcases ((hall i hi).2 x hx).2 a hpre with (heq | hn) | hpre
    · exact absurd heq hne
    · exact absurd hin hn
    · exact hpre

end Pruning

/-
# Pruning of unused objects

`prune_unused_objects` (ast_desugaring/pruning.py): a recursive walk from the
keepers marks the objects that are used (`_keep_from`), then every prunable
object without a mark is deleted, with the assignments of deleted pointers.
-/

namespace Pruning

open Visit

/-! ## Marking -/

/-- The enclosing scopes an occurrence marks, innermost first: prunable ones are
walked too. -/
def Program.ancestors (p : Program) (scope : Spec) : List (Action Spec) :=
  (scope.inits.reverse.filter (fun a => decide (p.Declares a))).map
    (fun a => if p.prunable a then .visit a else .mark a)

/-- What `_keep_from` does at the names of a piece of code. -/
def Program.nameActions (p : Program) (scope : Spec) (names : List Spec) : List (Action Spec) :=
  names.flatMap (fun n => p.ancestors scope ++ [.visit n])

/-- What it does at a declared entity: the name itself counts only for a dummy argument. -/
def Program.entityActions (p : Program) (scope : Spec) (component : Bool) (e : Entity) :
    List (Action Spec) :=
  (if !component && decide (e.name ∈ p.dummies scope) then [.mark (scope ++ [e.name])] else []) ++
    p.nameActions scope e.refs.names

/-- What it does at the names of a statement.  The pointer that a pointer
assignment assigns is passed over. -/
def Program.itemActions (p : Program) : Item → List (Action Spec)
  | .decl scope component _ type entities =>
      p.nameActions scope type.names ++ entities.flatMap (p.entityActions scope component)
  | i => p.nameActions i.scope i.refs.names

/-- The component references of a statement. -/
def Item.comps (i : Item) : List Spec := i.allRefs.flatMap Refs.comps

/-- `_keep_from`, on the statement list of a scope: the names, then the component references. -/
def Program.scopeActions (p : Program) (s : Spec) : List (Action Spec) :=
  let inside := p.items.filter (fun i => decide (s <+: i.scope))
  inside.flatMap p.itemActions ++ (inside.flatMap Item.comps).map .mark

/-- `_keep_from`, on the parent of the object's declaration: a scope with all that
is in it, or the list of entities a variable is declared in. -/
def Program.walk (p : Program) (s : Spec) : List (Action Spec) :=
  match p.declaration s with
  | some (.opens _ .module _) => []
  | some (.opens _ _ _) => p.scopeActions s
  | some (.decl scope component _ _ entities) =>
      entities.flatMap (p.entityActions scope component) ++
        (entities.flatMap (fun e => e.refs.comps)).map .mark
  | _ => []

/-- All objects a program declares. -/
def Program.objects (p : Program) : List Spec := p.items.flatMap Item.declared

/-- The objects the walk marks, starting with the keepers. -/
def Program.survivors (p : Program) (keepers : List Spec) : List Spec :=
  visit p.walk (p.objects.length + 1) (keepers.flatMap p.walk) keepers

/-! ## Deletion -/

/-- Neither the object nor a scope around it is deleted. -/
def Program.alive (p : Program) (S : List Spec) (s : Spec) : Bool :=
  s.inits.all (fun a => !p.prunable a || decide (a ∈ S))

/-- The object is declared as a pointer variable. -/
def Program.isPointer (p : Program) (s : Spec) : Bool :=
  match p.declaration s with
  | some (.decl _ component pointer _ _) => !component && pointer
  | _ => false

/-- The assignments of the pointer are deleted: it is deleted itself, and not with
a scope around it. -/
def Program.unassigned (p : Program) (S : List Spec) (s : Spec) : Bool :=
  p.isPointer s && !decide (s ∈ S) && p.alive S s.dropLast

/-- What is left of a statement. -/
def Program.pruneItem (p : Program) (S : List Spec) (i : Item) : Option Item :=
  if p.alive S i.scope then
    match i with
    | .decl scope component pointer type entities =>
        let kept := entities.filter (fun e => decide (scope ++ [e.name] ∈ S))
        if kept.isEmpty then none else some (.decl scope component pointer type kept)
    | .equivalence scope pairs =>
        let kept := pairs.filter (fun q => decide (q.1 ∈ S) && decide (q.2 ∈ S))
        if kept.isEmpty then none else some (.equivalence scope kept)
    | .pointerAssign scope lhs ifAction calls refs =>
        if p.unassigned S lhs then none else some (.pointerAssign scope lhs ifAction calls refs)
    | i => some i
  else none

/-- `prune_unused_objects`. -/
def pruneUnusedObjects (p : Program) (keepers : List Spec) : Program :=
  ⟨p.items.filterMap (p.pruneItem (p.survivors keepers))⟩

end Pruning
