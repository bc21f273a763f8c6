/-
# The flat batch of a loop body

The body of a DO loop that is a list of assignments, and the chain of states
and interstate edges `emit_loop` (builder/emit_cfg.py) emits for it.  Symbol
assignments and the symbols of indirect subscripts ride on edges, the other
assignments become tasklets.  Four hazard tests choose between hoisting every
symbol ahead of every tasklet (the fast schedule, its tasklets possibly one a
state) and emitting statement by statement in source order.

The assignments of one edge take effect together; the tasklets of one state run
in any order that respects the dataflow through its access nodes.
-/
import DaceFortran.Builder.Access

/-! ## The source program -/

/-- One Fortran assignment. -/
def Assign.exec (I : Interp) (σ : Store) (a : Assign) : Store :=
  σ.write a.target (Expr.evalList I σ a.subs) (a.value.eval I σ)

/-- The assignments in source order. -/
def runSource (I : Interp) (assigns : List Assign) (σ : Store) : Store :=
  assigns.foldl (Assign.exec I) σ

/-- No name is registered twice, and none is one the builder is about to mint. -/
structure SDFGBuilder.Registered (b : SDFGBuilder) (gid : ℕ) : Prop where
  symbols_arrays : ∀ x ∈ b.symbols, x ∉ b.arrays
  symbols_scalars : ∀ x ∈ b.symbols, x ∉ b.scalars
  arrays_scalars : ∀ x ∈ b.arrays, x ∉ b.scalars
  old : ∀ x, x ∈ b.symbols ∨ x ∈ b.arrays ∨ x ∈ b.scalars → ¬ x.MintedFrom gid

/-- What the bridge promises of an assignment: its target is a symbol, a scalar
or an array element; exactly the arrays are subscripted; and a variable in a
subscript is classified as a symbol, not as a scalar. -/
structure Assign.WellFormed (b : SDFGBuilder) (gid : ℕ) (a : Assign) : Prop where
  value_old : ∀ x ∈ a.value.idents, ¬ x.MintedFrom gid
  subs_old : ∀ x ∈ Expr.identsList a.subs, ¬ x.MintedFrom gid
  target_kind : ((a.target ∈ b.symbols ∨ a.target ∈ b.scalars) ∧ a.subs = []) ∨
    (a.target ∈ b.arrays ∧ a.subs ≠ [])
  reads_arrays : ∀ ac ∈ Expr.readsList a.subs ++ a.value.reads, ac.arrayName ∈ b.arrays
  value_atoms : ∀ x ∈ a.value.atoms, x ∉ b.arrays
  index_atoms : ∀ ac ∈ a.accesses, ∀ x ∈ Expr.atomsList ac.indexExprs,
    x ∉ b.scalars ∧ x ∉ b.arrays

/-- The assignments of a loop body, met when the next free id is `gid`. -/
structure FlatBatch (b : SDFGBuilder) (gid : ℕ) where
  assigns : List Assign
  registered : b.Registered gid
  wellFormed : ∀ a ∈ assigns, a.WellFormed b gid

/-! ## Hazard tests -/

/-- The arrays an assignment reads. -/
def Assign.readArrays (a : Assign) : List Name :=
  (a.accesses.filter (fun ac => !ac.isWrite)).map AccessInfo.arrayName

/-- The arrays an assignment writes. -/
def Assign.writeArrays (a : Assign) : List Name :=
  (a.accesses.filter (fun ac => ac.isWrite)).map AccessInfo.arrayName

/-- One pass of `_sibling_rw_hazard`: some assignment reads an array that an
earlier one of the list writes. -/
def readsAfterWrite : List Name → List Assign → Bool
  | _, [] => false
  | written, a :: as =>
      a.readArrays.any (fun x => decide (x ∈ written)) ||
        readsAfterWrite (a.writeArrays ++ written) as

/-- `_sibling_rw_hazard`: the forward and the reverse pass.  (The names the
forward pass also adds for a self-update are written ones.) -/
def siblingRwHazard (assigns : List Assign) : Bool :=
  readsAfterWrite [] assigns || readsAfterWrite [] assigns.reverse

/-- One round of `_hoist_hazard_targets`. -/
def hoistHazardRound (pairs : List (Name × Expr)) (later hazardous : List Name) : List Name :=
  pairs.foldl (fun hz p =>
    if p.1 ∉ hz ∧ (p.2.idents.any (fun x => decide (x ∈ later ∨ x ∈ hz))) = true then hz ++ [p.1]
    else hz) hazardous

/-- `_hoist_hazard_targets`: targets that may not be hoisted ahead of `later`.
Every round but the last adds a target, so one round a pair reaches the end. -/
def hoistHazardTargets (pairs : List (Name × Expr)) (later : List Name) : List Name :=
  (hoistHazardRound pairs later)^[pairs.length] []

/-- `_assign_read_names`: the names an assignment mentions in its value or in a
subscript. -/
def Assign.readNames (a : Assign) : List Name :=
  a.value.tokens ++ a.accesses.flatMap (fun ac => Expr.identsList ac.indexExprs)

/-- `_overwritten_after_read`: symbol targets assigned after a compute statement
that reads them; `read` holds the names read so far. -/
def overwrittenAfterRead (b : SDFGBuilder) : List Name → List Assign → List Name
  | _, [] => []
  | read, a :: as =>
      if a.target ∈ b.symbols then
        if a.target ∈ read then a.target :: overwrittenAfterRead b read as
        else overwrittenAfterRead b read as
      else overwrittenAfterRead b (a.readNames ++ read) as

/-- `_conflicts_with_edge`. -/
def conflictsWithEdge (edge : List (Name × Expr)) (tgt : Name) (rhs : Expr) : Bool :=
  decide (tgt ∈ edge.map Prod.fst) || rhs.idents.any (fun x => decide (x ∈ edge.map Prod.fst)) ||
    edge.any (fun p => decide (tgt ∈ p.2.idents))

/-! ## States -/

/-- A tasklet `t_<idx>` and the assignment it performs, its subscripts rendered. -/
structure Tasklet where
  idx : ℕ
  code : Assign
  deriving DecidableEq

/-- An access node, with the tasklets that write into it and read from it. -/
structure AccessNode where
  data : Name
  writers : List ℕ
  readers : List ℕ
  deriving DecidableEq

/-- A state: its tasklets in the order they were added, and its access nodes, of
which the first one of a name is the cached live sink (`access_caches`). -/
structure SDFGState where
  tasklets : List Tasklet := []
  nodes : List AccessNode := []
  deriving DecidableEq

/-- `acc` and an edge to the tasklet: read from the live sink of a name. -/
def addReader (nm : Name) (i : ℕ) : List AccessNode → List AccessNode
  | [] => [⟨nm, [], [i]⟩]
  | n :: ns => if n.data = nm then { n with readers := i :: n.readers } :: ns else n ::
      addReader nm i ns

/-- `acc` and an edge from the tasklet: write into the live sink of a name. -/
def addWriter (nm : Name) (i : ℕ) : List AccessNode → List AccessNode
  | [] => [⟨nm, [i], []⟩]
  | n :: ns => if n.data = nm then { n with writers := i :: n.writers } :: ns else n ::
      addWriter nm i ns

/-- The live sink of a name. -/
def liveSink (ns : List AccessNode) (nm : Name) : Option AccessNode :=
  ns.find? (fun n => n.data = nm)

/-- The data an assignment's tasklet reads through connectors: arrays and scalars
among the tokens of its value. -/
def Assign.connectors (b : SDFGBuilder) (a : Assign) : List Name :=
  a.value.tokens.filter (fun x => decide (x ∈ b.arrays ∨ x ∈ b.scalars))

/-- The access nodes after `emit_tasklet`: a self-update, or a write of a name
whose live sink was already read, opens a new node. -/
def emitNodes (b : SDFGBuilder) (ns : List AccessNode) (a : Assign) (i : ℕ) : List AccessNode :=
  let ns := (a.connectors b).foldl (fun ns nm => addReader nm i ns) ns
  if a.target ∈ a.connectors b ∨ (liveSink ns a.target).any (fun n => n.readers ≠ []) then
    ⟨a.target, [i], []⟩ :: ns
  else addWriter a.target i ns

/-- The tasklet's statement: its subscripts and memlets with the indirect symbols. -/
def Assign.render (m : IndirectSyms) (a : Assign) : Assign :=
  ⟨a.target, Expr.liftList m a.subs, a.value.withMemlets m⟩

/-- `emit_tasklet`. -/
def SDFGState.emitTasklet (b : SDFGBuilder) (m : IndirectSyms) (g : SDFGState)
    (a : Assign) (i : ℕ) :
    SDFGState where
  tasklets := g.tasklets ++ [⟨i, a.render m⟩]
  nodes := emitNodes b g.nodes a i

/-- `_scalar_reassign_in_state`: the target is a scalar the state already reads
or writes. -/
def SDFGState.scalarReassign (b : SDFGBuilder) (g : SDFGState) (a : Assign) : Bool :=
  decide (a.target ∈ b.scalars) &&
    g.nodes.any (fun n => decide (n.data = a.target) && (!n.writers.isEmpty || !n.readers.isEmpty))

/-! ## Emission -/

/-- An element of the emitted chain. -/
inductive ChainStep where
  | state (g : SDFGState)
  | edge (assignments : List (Name × Expr))
 

/-- The emission in progress: the chain up to the current state, that state, and
the edge pending behind it. -/
structure Emission where
  chain : List ChainStep := []
  cur : SDFGState := {}
  edge : List (Name × Expr) := []
  emitted : List Expr := []
  computeI : ℕ := 0

/-- Open a new state behind the pending edge. -/
def Emission.close (e : Emission) : Emission :=
  { e with chain := e.chain ++ [.state e.cur, .edge e.edge], cur := {}, edge := [] }

/-- Define the symbol of an indirect expression on an edge of its own. -/
def Emission.define (m : IndirectSyms) (e : Emission) (x : Expr) : Emission :=
  if x ∈ e.emitted then e
  else match m.lookup x with
    | none => e
    | some s =>
        let e := if e.edge = [] then e else e.close
        { e with
          chain := e.chain ++ [.state e.cur, .edge [(s, indirectToDace m x)]]
          cur := {}
          emitted := x :: e.emitted }

/-- Put a symbol assignment on the pending edge, or on a new one if it conflicts. -/
def Emission.assignSymbol (e : Emission) (tgt : Name) (rhs : Expr) : Emission :=
  let e := if conflictsWithEdge e.edge tgt rhs then e.close else e
  { e with edge := e.edge ++ [(tgt, rhs)] }

/-- Put a compute statement into the current state, or into a new one. -/
def Emission.compute (b : SDFGBuilder) (m : IndirectSyms) (opens : Bool) (e : Emission)
    (a : Assign) : Emission :=
  let e := if opens then e.close else e
  { e with cur := e.cur.emitTasklet b m a e.computeI, computeI := e.computeI + 1 }

namespace FlatBatch

variable {b : SDFGBuilder} {gid : ℕ} (B : FlatBatch b gid)

/-- `collect_indirect` over the whole body. -/
def indirectSyms : IndirectSyms := collectIndirect gid B.assigns

/-- The assignments whose target is a symbol. -/
def symbolAssigns : List Assign := B.assigns.filter (fun a => decide (a.target ∈ b.symbols))

/-- The assignments that become tasklets. -/
def computeAssigns : List Assign := B.assigns.filter (fun a => !decide (a.target ∈ b.symbols))

/-- The definitions of the indirect symbols. -/
def perSymAssigns : List (Name × Expr) :=
  B.indirectSyms.map (fun p => (p.2, indirectToDace B.indirectSyms p.1))

/-- The symbol assignments as they are put on edges. -/
def symbolAssignPairs : List (Name × Expr) :=
  B.symbolAssigns.map (fun a => (a.target, arrayReadToDaceExpr a))

/-- One state per tasklet is forced by an array that siblings read and write. -/
def serialise : Bool := siblingRwHazard B.computeAssigns

/-- Targets that the fast schedule may not hoist. -/
def hazardous : List Name :=
  hoistHazardTargets B.symbolAssignPairs (B.computeAssigns.map Assign.target) ++
    hoistHazardTargets B.perSymAssigns
      (B.computeAssigns.map Assign.target ++ B.symbolAssignPairs.map Prod.fst) ++
    overwrittenAfterRead b [] B.assigns

/-- Some symbol is written more than once. -/
def repeatedSymbolWrite : Bool :=
  !decide (B.symbolAssignPairs.map Prod.fst ++ B.perSymAssigns.map Prod.fst).Nodup

/-- Whether the body is emitted in source order. -/
def sourceOrder : Bool := !B.hazardous.isEmpty || B.repeatedSymbolWrite

/-- One statement of the source-order schedule. -/
def emitStatement (e : Emission) (a : Assign) : Emission :=
  let e := (indirectExprs a).foldl (Emission.define B.indirectSyms) e
  if a.target ∈ b.symbols then e.assignSymbol a.target (arrayReadToDaceExpr a)
  else
    e.compute b B.indirectSyms
      (e.computeI == 0 || !e.edge.isEmpty || B.serialise || e.cur.scalarReassign b a) a

/-- The source-order schedule. -/
def sourceOrderEmission : Emission :=
  let e := B.assigns.foldl B.emitStatement {}
  if e.edge = [] then e else e.close

/-- The symbols of the fast schedule: the indirect ones, then the assigned ones. -/
def hoistedEmission : Emission :=
  if B.perSymAssigns = [] ∧ B.symbolAssignPairs = [] then {}
  else
    let e := (B.indirectSyms.map Prod.fst).foldl (Emission.define B.indirectSyms) {}
    (B.symbolAssignPairs.foldl (fun e p => e.assignSymbol p.1 p.2) e).close

/-- The fast schedule, one state per tasklet if `serialise`. -/
def fastEmission : Emission :=
  B.computeAssigns.foldl (fun e a =>
    e.compute b B.indirectSyms
      (e.computeI != 0 && (B.serialise || e.cur.scalarReassign b a)) a) B.hoistedEmission

/-- The emission of the body, by whichever schedule. -/
def emission : Emission := if B.sourceOrder then B.sourceOrderEmission else B.fastEmission

/-- The chain of states and edges emitted for the body. -/
def emitted : List ChainStep := B.emission.chain ++ [.state B.emission.cur]

end FlatBatch

/-! ## Execution -/

/-- The assignments of one edge, all evaluated on the values the edge is entered with. -/
def applyEdge (I : Interp) (edge : List (Name × Expr)) (σ : Store) : Store :=
  edge.foldl (fun τ p => τ.set p.1 (p.2.eval I σ)) σ

/-- One tasklet writes an access node another one reads from. -/
def SDFGState.Flows (g : SDFGState) (t u : Tasklet) : Prop :=
  ∃ n ∈ g.nodes, t.idx ∈ n.writers ∧ u.idx ∈ n.readers

instance (g : SDFGState) (t u : Tasklet) : Decidable (g.Flows t u) := by
  unfold SDFGState.Flows
  infer_instance

/-- An order in which the tasklets of a state may run. -/
structure SDFGState.Schedule (g : SDFGState) (order : List Tasklet) : Prop where
  perm : order.Perm g.tasklets
  dataflow : order.Pairwise (fun t u => ¬ g.Flows u t)

/-- The tasklets in a given order. -/
def runTasklets (I : Interp) (order : List Tasklet) (σ : Store) : Store :=
  order.foldl (fun σ t => t.code.exec I σ) σ

/-- One element of the chain takes a store to another. -/
inductive ChainStep.Runs (I : Interp) : ChainStep → Store → Store → Prop
  | state {g : SDFGState} {order : List Tasklet} {σ : Store} :
      g.Schedule order → Runs I (.state g) σ (runTasklets I order σ)
  | edge {assignments : List (Name × Expr)} {σ : Store} :
      Runs I (.edge assignments) σ (applyEdge I assignments σ)

/-- The chain takes a store to another. -/
inductive ChainRuns (I : Interp) : List ChainStep → Store → Store → Prop
  | nil {σ : Store} : ChainRuns I [] σ σ
  | cons {st : ChainStep} {chain : List ChainStep} {σ τ υ : Store} :
      st.Runs I σ τ → ChainRuns I chain τ υ → ChainRuns I (st :: chain) σ υ
