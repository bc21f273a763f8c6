/-
# `unroll_small_maps`

A map with constant ranges in a state: its entry and exit, the tasklets and access nodes of its
scope, and the rest of the state around it.  `_unroll` replaces the scope by one copy of its nodes
for every combination of the parameters' values, and connects the copies to what the entry and the
exit were connected to.
-/
import Mathlib.Data.Int.Notation
import Mathlib.Data.Nat.Notation
import Mathlib.Logic.Relation

namespace UnrollMaps

/-! ## Memlets and code -/

/-- An expression of a subset, or of a tasklet's code. -/
inductive Expr
  | const (z : ℤ)
  | sym (x : String)
  | neg (a : Expr)
  | add (a b : Expr)
  | mul (a b : Expr)
  | fn (f : String) (a b : Expr)
deriving DecidableEq

namespace Expr

def eval (fns : String → ℤ → ℤ → ℤ) (env : String → ℤ) : Expr → ℤ
  | const z => z
  | sym x => env x
  | neg a => -eval fns env a
  | add a b => eval fns env a + eval fns env b
  | mul a b => eval fns env a * eval fns env b
  | fn f a b => fns f (eval fns env a) (eval fns env b)

/-- One name replaced by a number. -/
def replace (p : String) (v : ℤ) : Expr → Expr
  | const z => const z
  | sym x => if x = p then const v else sym x
  | neg a => neg (replace p v a)
  | add a b => add (replace p v a) (replace p v b)
  | mul a b => mul (replace p v a) (replace p v b)
  | fn f a b => fn f (replace p v a) (replace p v b)

/-- The parameters replaced by their values, one after another. -/
def replaceAll (vals : List (String × ℤ)) (e : Expr) : Expr :=
  vals.foldl (fun e p => replace p.1 p.2 e) e

end Expr

/-- The container, the subset (begin, end and step of each dimension) and the write-conflict
resolution. -/
structure Memlet where
  data : String
  subset : List (Expr × Expr × Expr)
  wcr : Option String
deriving DecidableEq

/-- `_substituted` -/
def substituted (m : Memlet) (vals : List (String × ℤ)) : Memlet :=
  { m with subset := m.subset.map fun r =>
      (r.1.replaceAll vals, r.2.1.replaceAll vals, r.2.2.replaceAll vals) }

/-! ## The state -/

/-- A connector: `IN_x`, `OUT_x` or another one. -/
inductive Conn
  | inp (x : String)
  | out (x : String)
  | plain (x : String)
deriving DecidableEq

/-- The nodes of the state, seen from the map. -/
inductive Node
  | outer (k : ℕ)
  | entry
  | exit
  | inner (k : ℕ)
deriving DecidableEq

/-- The nodes after the rewrite: a copy has the values of its iteration. -/
inductive Unrolled
  | outer (k : ℕ)
  | copy (values : List ℤ) (k : ℕ)
deriving DecidableEq

/-- An edge; one without a memlet only orders its ends. -/
structure Edge (N : Type) where
  src : N
  srcConn : Option Conn
  dst : N
  dstConn : Option Conn
  memlet : Option Memlet

def Adj {N : Type} (edges : List (Edge N)) (a b : N) : Prop := ∃ e ∈ edges, e.src = a ∧ e.dst = b

/-- A map's scope in its state. -/
structure MapScope where
  params : List String
  /-- Begin, end and step of each parameter, the end included. -/
  ranges : List (ℤ × ℤ × ℤ)
  edges : List (Edge Node)
  /-- The code of the scope's tasklets. -/
  code : ℕ → Option Expr
  /-- The entry and exit of the scope around the map. -/
  outerScope : Option (ℕ × ℕ)
  /-- The containers of the scope's access nodes. -/
  locals : List String
  /-- The names `add_datadesc` finds for them. -/
  fresh : List ℤ → String → String

namespace MapScope

variable (M : MapScope)

/-- `{e.dst_conn: e for e in state.in_edges(entry) if e.dst_conn}`, looked up. -/
def ins (x : String) : Option (Edge Node) :=
  M.edges.find? fun e => e.dst = .entry ∧ e.dstConn = some (.inp x)

def outs (x : String) : Option (Edge Node) :=
  M.edges.find? fun e => e.src = .exit ∧ e.srcConn = some (.out x)

/-- The empty edges into the entry. -/
def before : List (Edge Node) := M.edges.filter fun e => e.dst = .entry ∧ e.memlet = none

/-- The empty edges out of the exit. -/
def after : List (Edge Node) := M.edges.filter fun e => e.src = .exit ∧ e.memlet = none

/-- A node outside of the scope. -/
def outside : Node → Option Unrolled
  | .outer k => some (.outer k)
  | _ => none

/-- Python's `range(start, stop, step)`. -/
def pyRange (start stop step : ℤ) : List ℤ :=
  (List.range (if 0 < step then (stop - start + step - 1) / step
    else (start - stop - step - 1) / -step).toNat).map fun (k : ℕ) => start + step * k

/-- `_constant_ranges` of one parameter. -/
def constantRange (r : ℤ × ℤ × ℤ) : List ℤ := pyRange r.1 (r.2.1 + 1) r.2.2

/-- `itertools.product` -/
def product : List (List ℤ) → List (List ℤ)
  | [] => [[]]
  | r :: rs => r.flatMap fun x => (product rs).map (x :: ·)

/-- The combinations of values that are unrolled. -/
def performed : List (List ℤ) := product (M.ranges.map constantRange)

def vals (v : List ℤ) : List (String × ℤ) := M.params.zip v

/-- `renamed.get(name, name)` -/
def renamed (v : List ℤ) (name : String) : String :=
  if name ∈ M.locals then M.fresh v name else name

def memletOf (v : List ℤ) (m : Memlet) : Memlet :=
  { substituted m (M.vals v) with data := M.renamed v m.data }

/-- The code of a tasklet's copy. -/
def codeOf (v : List ℤ) (k : ℕ) : Option Expr := (M.code k).map (Expr.replaceAll (M.vals v))

/-- The edges among the copies of an iteration. -/
def insideEdge (v : List ℤ) (e : Edge Node) : List (Edge Unrolled) :=
  match e.src, e.dst with
  | .inner a, .inner b => [⟨.copy v a, e.srcConn, .copy v b, e.dstConn,
      e.memlet.map (M.memletOf v)⟩]
  | _, _ => []

/-- What an edge out of the entry becomes in an iteration. -/
def entryEdge (v : List ℤ) (e : Edge Node) : List (Edge Unrolled) :=
  match e.src, e.dst with
  | .entry, .inner b =>
    match e.memlet with
    | none =>
      (M.before.filterMap fun p => (outside p.src).map fun x => ⟨x, p.srcConn,
        .copy v b, none, none⟩)
      ++ (if M.before = [] then
          M.outerScope.toList.map fun s => ⟨.outer s.1, none, .copy v b, none, none⟩
        else [])
    | some m =>
      match e.srcConn with
      | some (.out x) =>
        ((M.ins x).bind fun p => (outside p.src).map fun y =>
          (⟨y, p.srcConn, .copy v b, e.dstConn, some (M.memletOf v m)⟩ : Edge Unrolled)).toList
      | _ => []
  | _, _ => []

/-- What an edge into the exit becomes in an iteration. -/
def exitEdge (v : List ℤ) (e : Edge Node) : List (Edge Unrolled) :=
  match e.src, e.dst with
  | .inner a, .exit =>
    match e.memlet with
    | none =>
      (M.after.filterMap fun q => (outside q.dst).map fun x => ⟨.copy v a, none, x,
        q.dstConn, none⟩)
      ++ (if M.after = [] then
          M.outerScope.toList.map fun s => ⟨.copy v a, none, .outer s.2, none, none⟩
        else [])
    | some m =>
      match e.dstConn with
      | some (.inp x) =>
        ((M.outs x).bind fun q => (outside q.dst).map fun y =>
          (⟨.copy v a, e.srcConn, y, q.dstConn, some (M.memletOf v m)⟩ : Edge Unrolled)).toList
      | _ => []
  | _, _ => []

/-- An edge that neither end of the map touches. -/
def outsideEdge (e : Edge Node) : List (Edge Unrolled) :=
  match e.src, e.dst with
  | .outer a, .outer b => [⟨.outer a, e.srcConn, .outer b, e.dstConn, e.memlet⟩]
  | _, _ => []

/-- The edges of one iteration. -/
def iterationEdges (v : List ℤ) : List (Edge Unrolled) :=
  M.edges.flatMap (M.insideEdge v) ++ M.edges.flatMap (M.entryEdge v) ++
    M.edges.flatMap (M.exitEdge v)

/-- `_unroll` -/
def unroll : List (Edge Unrolled) :=
  M.edges.flatMap outsideEdge ++ M.performed.flatMap M.iterationEdges

/-- What a valid state promises of a map. -/
structure Valid : Prop where
  /-- The scope is entered and left through its entry and exit only. -/
  outerDst : ∀ e ∈ M.edges, ∀ k, e.src = .outer k → (∃ j, e.dst = .outer j) ∨ e.dst = .entry
  entryDst : ∀ e ∈ M.edges, e.src = .entry → ∃ j, e.dst = .inner j
  innerDst : ∀ e ∈ M.edges, ∀ k, e.src = .inner k → (∃ j, e.dst = .inner j) ∨ e.dst = .exit
  exitDst : ∀ e ∈ M.edges, e.src = .exit → ∃ j, e.dst = .outer j
  acyclic : ∀ x, ¬ Relation.TransGen (Adj M.edges) x x
  /-- Every node of the scope lies between its entry and its exit. -/
  fromEntry : ∀ e ∈ M.edges, ∀ k, e.src = .inner k ∨ e.dst = .inner k →
    Relation.TransGen (Adj M.edges) .entry (.inner k)
  toExit : ∀ e ∈ M.edges, ∀ k, e.src = .inner k ∨ e.dst = .inner k →
    Relation.TransGen (Adj M.edges) (.inner k) .exit
  through : Relation.TransGen (Adj M.edges) .entry .exit
  /-- The map lies between the entry and the exit of the scope around it. -/
  nested : ∀ s ∈ M.outerScope, Relation.TransGen (Adj M.edges) (.outer s.1) .entry
    ∧ Relation.TransGen (Adj M.edges) .exit (.outer s.2)
  /-- A memlet that leaves the entry comes in by the connector of the same name. -/
  insFound : ∀ e ∈ M.edges, e.src = .entry → e.memlet ≠ none →
    ∃ x f, e.srcConn = some (.out x) ∧ M.ins x = some f
  outsFound : ∀ e ∈ M.edges, e.dst = .exit → e.memlet ≠ none →
    ∃ x f, e.dstConn = some (.inp x) ∧ M.outs x = some f
  /-- A new name is a new name. -/
  freshInj : ∀ v ∈ M.performed, ∀ w ∈ M.performed, ∀ a ∈ M.locals, ∀ b ∈ M.locals,
    M.fresh v a = M.fresh w b → v = w ∧ a = b
  /-- No step is zero. -/
  steps : ∀ r ∈ M.ranges, r.2.2 ≠ 0

end MapScope

end UnrollMaps
