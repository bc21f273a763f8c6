/-
# `accumulations_to_wcr`

A loop's body is a tree of states, nested loops, branches and the assignments of interstate edges;
a state is the list of its nodes in an order of its graph.  A tasklet `out = in + e` or
`out = in - e` that reads and writes one element of an array becomes `out = e` or `out = -(e)` with
a sum as write-conflict resolution, when every read of the array by a node of the loop is such a
tasklet's.

Arithmetic is exact; an index is a number too.
-/
import Mathlib.Algebra.Order.Field.Rat
import Mathlib.Data.List.Dedup

namespace Accumulations

/-! ## The store -/

/-- An element of a container, or a symbol. -/
inductive Loc
  | cell (array : String) (ix : List ℚ)
  | sym (name : String)
deriving DecidableEq

abbrev Store := Loc → ℚ

/-- An index expression of a memlet. -/
inductive SymExpr
  | const (q : ℚ)
  | sym (name : String)
  | add (a b : SymExpr)
  | sub (a b : SymExpr)
  | mul (a b : SymExpr)
deriving DecidableEq

namespace SymExpr

def eval (s : Store) : SymExpr → ℚ
  | const q => q
  | sym x => s (.sym x)
  | add a b => eval s a + eval s b
  | sub a b => eval s a - eval s b
  | mul a b => eval s a * eval s b

/-- `free_symbols` -/
def freeSymbols : SymExpr → List String
  | const _ => []
  | sym x => [x]
  | add a b | sub a b | mul a b => freeSymbols a ++ freeSymbols b

end SymExpr

/-! ## Nodes -/

inductive Op
  | add
  | sub
  | mul
  | div
deriving DecidableEq

def Op.apply : Op → ℚ → ℚ → ℚ
  | add, a, b => a + b
  | sub, a, b => a - b
  | mul, a, b => a * b
  | div, a, b => a / b

/-- An expression of a tasklet's code; `fn` is a function of one argument by its name. -/
inductive Code
  | const (q : ℚ)
  | name (x : String)
  | elem (x : String) (i : Code)
  | neg (e : Code)
  | bin (op : Op) (l r : Code)
  | fn (f : String) (e : Code)
deriving DecidableEq

/-- A name holds a number, or the elements behind a pointer. -/
abbrev Env := String → Option (List ℚ → ℚ)

namespace Code

def eval (fns : String → ℚ → ℚ) (env : Env) : Code → Option ℚ
  | const q => some q
  | name x => (env x).map fun f => f []
  | elem x i => (env x).bind fun f => (eval fns env i).map fun k => f [k]
  | neg e => (eval fns env e).map fun v => -v
  | bin op l r => (eval fns env l).bind fun a => (eval fns env r).map fun b => op.apply a b
  | fn f e => (eval fns env e).map (fns f)

def names : Code → List String
  | const _ => []
  | name x => [x]
  | elem x i => x :: names i
  | neg e => names e
  | bin _ l r => names l ++ names r
  | fn _ e => names e

end Code

/-- A memlet edge between a tasklet and an access node: the connector, the array, where its subset
begins, whether that is one element (`num_elements() == 1`), and whether it sums. -/
structure Access where
  conn : String
  data : String
  lo : List SymExpr
  single : Bool
  wcr : Bool
deriving DecidableEq

/-- `targets = value` -/
structure Assign where
  targets : List String
  value : Code
deriving DecidableEq

structure Tasklet where
  ins : List Access
  outs : List Access
  body : List Assign
  /-- A connector has one edge. -/
  conns : (ins.map Access.conn).Nodup

/-- Any other node of a state (a map, a copy, a library node, a nested SDFG): what it reads and
writes, and what it does. -/
structure Other where
  reads : List String
  writes : List (String × List SymExpr)
  run : Store → Store
  frame : ∀ s l, (∀ a ∈ writes.map Prod.fst, ∀ ix, l ≠ .cell a ix) → run s l = s l
  sound : ∀ s t, (∀ x, s (.sym x) = t (.sym x)) →
    (∀ a ∈ reads, ∀ ix, s (.cell a ix) = t (.cell a ix)) →
    ∀ l, s l = t l → run s l = run t l

inductive Node
  | tasklet (t : Tasklet)
  | other (o : Other)

/-- The element of an array at an offset from where a subset begins. -/
def shift : List ℚ → List ℚ → List ℚ
  | lo, [] => lo
  | [], _ => []
  | a :: lo, b :: off => (a + b) :: shift lo off

namespace Tasklet

/-- What the connectors hold. -/
def env (ins : List Access) (s : Store) : Env := fun c =>
  (ins.find? fun a => a.conn = c).map fun a off =>
    s (.cell a.data (shift (a.lo.map (SymExpr.eval s)) off))

def runBody (fns : String → ℚ → ℚ) : Env → List Assign → Option Env
  | env, [] => some env
  | env, a :: rest => (a.value.eval fns env).bind fun v =>
      runBody fns (fun x => if x ∈ a.targets then some fun _ => v else env x) rest

/-- The write of one out-edge; `s` gives the symbols of its subset. -/
def write (s : Store) (env : Env) (t : Store) (o : Access) : Option Store :=
  (env o.conn).map fun f =>
    let l := Loc.cell o.data (o.lo.map (SymExpr.eval s))
    Function.update t l (if o.wcr then t l + f [] else f [])

def writes (s : Store) (env : Env) : Store → List Access → Option Store
  | t, [] => some t
  | t, o :: rest => (write s env t o).bind fun t' => writes s env t' rest

def run (fns : String → ℚ → ℚ) (t : Tasklet) (s : Store) : Option Store :=
  (runBody fns (env t.ins s) t.body).bind fun e => writes s e s t.outs

end Tasklet

def Node.run (fns : String → ℚ → ℚ) : Node → Store → Option Store
  | .tasklet t, s => t.run fns s
  | .other o, s => some (o.run s)

def runNodes (fns : String → ℚ → ℚ) : List Node → Store → Option Store
  | [], s => some s
  | n :: rest, s => (n.run fns s).bind (runNodes fns rest)

/-! ## Loops -/

/-- An expression of a condition or an interstate assignment: the containers it reads and its
value. -/
structure Reading where
  reads : List String
  value : Store → ℚ
  sound : ∀ s t, (∀ x, s (.sym x) = t (.sym x)) →
    (∀ a ∈ reads, ∀ ix, s (.cell a ix) = t (.cell a ix)) → value s = value t

inductive Body
  | state (nodes : List Node)
  | assign (x : String) (v : Reading)
  | seq (a b : Body)
  | branch (c : Reading) (a b : Body)
  | loop (c : Reading) (b : Body)

namespace Body

/-- The nodes of all states. -/
def nodes : Body → List Node
  | state ns => ns
  | assign _ _ => []
  | seq a b => nodes a ++ nodes b
  | branch _ a b => nodes a ++ nodes b
  | loop _ b => nodes b

/-- The symbols the interstate edges assign. -/
def assigned : Body → List String
  | state _ => []
  | assign x _ => [x]
  | seq a b => assigned a ++ assigned b
  | branch _ a b => assigned a ++ assigned b
  | loop _ b => assigned b

/-- The containers conditions and interstate assignments read. -/
def conditionReads : Body → List String
  | state _ => []
  | assign _ v => v.reads
  | seq a b => conditionReads a ++ conditionReads b
  | branch c a b => c.reads ++ conditionReads a ++ conditionReads b
  | loop c b => c.reads ++ conditionReads b

def mapNodes (f : Node → Node) : Body → Body
  | state ns => state (ns.map f)
  | assign x v => assign x v
  | seq a b => seq (mapNodes f a) (mapNodes f b)
  | branch c a b => branch c (mapNodes f a) (mapNodes f b)
  | loop c b => loop c (mapNodes f b)

end Body

/-- The runs of a body; a condition holds where its value is not 0. -/
inductive Exec (fns : String → ℚ → ℚ) : Body → Store → Store → Prop
  | state {ns s s'} (h : runNodes fns ns s = some s') : Exec fns (.state ns) s s'
  | assign {x v s} : Exec fns (.assign x v) s (Function.update s (.sym x) (v.value s))
  | seq {a b s s₁ s'} (ha : Exec fns a s s₁) (hb : Exec fns b s₁ s') : Exec fns (.seq a b) s s'
  | ifTrue {c a b s s'} (hc : c.value s ≠ 0) (ha : Exec fns a s s') : Exec fns (.branch c a b) s s'
  | ifFalse {c a b s s'} (hc : c.value s = 0) (hb : Exec fns b s s') :
    Exec fns (.branch c a b) s s'
  | done {c b s} (hc : c.value s = 0) : Exec fns (.loop c b) s s
  | turn {c b s s₁ s'} (hc : c.value s ≠ 0) (hb : Exec fns b s s₁)
    (hrest : Exec fns (.loop c b) s₁ s') : Exec fns (.loop c b) s s'

/-- A loop region with its loop variable. -/
structure Loop where
  var : String
  body : Body

/-- One iteration. -/
def Loop.Iteration (fns : String → ℚ → ℚ) (L : Loop) (i : ℚ) (s s' : Store) : Prop :=
  Exec fns L.body (Function.update s (.sym L.var) i) s'

/-- Iterations one after another. -/
def Loop.Runs (fns : String → ℚ → ℚ) (L : Loop) : List ℚ → Store → Store → Prop
  | [], s, s' => s' = s
  | i :: rest, s, s' => ∃ s₁, L.Iteration fns i s s₁ ∧ L.Runs fns rest s₁ s'

/-! ## The pass -/

/-- `_contribution` -/
def contribution (body : List Assign) (cIn cOut : String) : Option Code :=
  match body with
  | [⟨[target], .bin op l r⟩] =>
    if target ≠ cOut then none
    else if op ≠ .add ∧ op ≠ .sub then none
    else if l = .name cIn then some (if op = .add then r else .neg r)
    else if r = .name cIn ∧ op = .add then some l
    else none
  | _ => none

def Node.writtenSubsets (name : String) : Node → List (List SymExpr)
  | .tasklet t => (t.outs.filter fun o => o.data = name).map Access.lo
  | .other o => (o.writes.filter fun w => w.1 = name).map Prod.snd

/-- `_loop_writes` -/
def Loop.writes (L : Loop) (name : String) : List (List SymExpr) :=
  (L.body.nodes.flatMap (Node.writtenSubsets name)).dedup

/-- The test of one tasklet in `_candidates`: the edge it reads the element by and the
contribution. -/
def Loop.accumulation (L : Loop) (name : String) (t : Tasklet) : Option (Access × Code) :=
  match t.outs with
  | [e] =>
    let used := e.lo.flatMap SymExpr.freeSymbols
    if e.wcr ∨ e.data ≠ name ∨ e.single = false then none
    else if ¬ ((∃ x ∈ used, x ∈ L.body.assigned) ∨ L.var ∈ used ∧
      2 ≤ (L.writes name).length) then none
    else
      match t.ins.filter fun a => a.data = name ∧ a.lo = e.lo ∧ a.single with
      | [feed] => (contribution t.body feed.conn e.conn).map fun c => (feed, c)
      | _ => none
  | _ => none

/-- Whether every read of the array by the node is an accumulation's. -/
def Loop.readsFeed (L : Loop) (name : String) : Node → Bool
  | .tasklet t => t.ins.all fun a =>
      a.data ≠ name || (L.accumulation name t).any fun p => p.1 = a
  | .other o => !o.reads.contains name

/-- Whether `accumulations_to_wcr` converts the array. -/
def Loop.converts (L : Loop) (name : String) : Bool :=
  (L.body.nodes.any fun
    | .tasklet t => (L.accumulation name t).isSome
    | .other _ => false)
  && L.body.nodes.all (L.readsFeed name)

theorem nodup_erase {ins : List Access} (h : (ins.map Access.conn).Nodup) (a : Access) :
    ((ins.erase a).map Access.conn).Nodup :=
  h.sublist (List.Sublist.map _ List.erase_sublist)

/-- A tasklet after the rewrite. -/
def Loop.convertTasklet (L : Loop) (t : Tasklet) : Tasklet :=
  match t.outs with
  | [e] =>
    if L.converts e.data then
      match L.accumulation e.data t with
      | some (feed, c) =>
        ⟨t.ins.erase feed, [{ e with wcr := true }], [⟨[e.conn], c⟩], nodup_erase t.conns feed⟩
      | none => t
    else t
  | _ => t

def Loop.convertNode (L : Loop) : Node → Node
  | .tasklet t => .tasklet (L.convertTasklet t)
  | .other o => .other o

/-- `accumulations_to_wcr` on one loop. -/
def Loop.accumulationsToWcr (L : Loop) : Loop := ⟨L.var, L.body.mapNodes L.convertNode⟩

end Accumulations
