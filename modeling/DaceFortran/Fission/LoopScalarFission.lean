/-
# Structured programs and their executions

The control-flow part of an SDFG as `loop_scalar_fission` walks it: states with
their access nodes, conditional blocks, loop regions, and the graph of blocks of
every region.  An execution is the list of the accesses it makes; branches and
trip counts are free, so a property of all executions holds whatever the data
decide.  What happens in one iteration of an outermost loop is kept together
(`Segment.iteration`).
-/
import Mathlib.Tactic
import DaceFortran.Lib.FlowGraph

namespace Fission

/-! ## Programs -/

/-- An access node of a state, and whether it has in-edges and out-edges. -/
structure AccessNode where
  data : String
  written : Bool
  read : Bool
  deriving DecidableEq

/-! A loop's `header` lists the data its init, condition and update name, a
branch's `cond` the data its condition names (`none` for the else branch), an
edge the data it reads. -/
mutual
inductive Block where
  | state (nodes : List AccessNode)
  | conditional (branches : List Branch)
  | loop (label : String) (header : List String) (body : Region)
inductive Branch where
  | mk (cond : Option (List String)) (body : Region)
inductive Region where
  | mk (blocks : List Block) (edges : List (FlowGraph.Edge (List String))) (start : ℕ)
end

/-- An array descriptor. -/
structure Desc where
  transient : Bool
  totalSize : ℕ
  deriving DecidableEq

/-- An SDFG: its arrays and its control flow. -/
structure Program where
  arrays : List (String × Desc)
  top : Region

/-! ## Accesses -/

/-- What an execution does: it reads a datum in a state or on an edge, reads one
in the condition of a branch or the header of a loop, or writes one.  Reaching
an inner loop and entering a region are recorded too. -/
inductive Event where
  | read (n : String)
  | test (n : String)
  | write (n : String) (v : ℤ)
  | reachLoop (body : Region)
  | enterRegion (r : Region)

/-- The accesses of a state: nodes without in-edge are read first, the others are
written before they are read. -/
def stateTrace (nodes : List AccessNode) (vals : ℕ → ℤ) : List Event :=
  (nodes.filter (fun n => !n.written && n.read)).map (fun n => .read n.data) ++
    nodes.zipIdx.flatMap (fun p =>
      if p.1.written then
        .write p.1.data (vals p.2) :: if p.1.read then [.read p.1.data] else []
      else [])

/-- Evaluating a condition or a loop header. -/
def tests (names : List String) : List Event := names.map .test

/-- The reads of the interstate edges that leave a block. -/
def leave (edges : List (FlowGraph.Edge (List String))) (b : ℕ) : List Event :=
  (edges.filter (fun e => e.src == b)).flatMap (fun e => e.data.map .read)

/-! The traces of a block or a region inside an outermost loop: branch conditions
are evaluated in order, an inner loop runs any number of times. -/
mutual
def Block.Traces : Block → List Event → Prop
  | .state nodes => fun t => ∃ vals, t = stateTrace nodes vals
  | .conditional branches => branchTraces branches
  | .loop _ header body => fun t => ∃ iters : List (List Event), (∀ i ∈ iters, body.Traces i) ∧
      t = .reachLoop body :: (tests header ++ iters.flatMap (fun i => i ++ tests header))
def branchTraces : List Branch → List Event → Prop
  | [] => fun t => t = []
  | .mk cond body :: rest => fun t =>
      (∃ u, body.Traces u ∧ t = tests (cond.getD []) ++ u) ∨
        (cond ≠ none ∧ ∃ u, branchTraces rest u ∧ t = tests (cond.getD []) ++ u)
def Region.Traces : Region → List Event → Prop
  | .mk blocks edges start => fun t => ∃ u, t = .enterRegion (.mk blocks edges start) :: u ∧
      ((blocks = [] ∧ u = []) ∨ FlowGraph.Walk (blockTraces blocks) edges (leave edges) start u)
def blockTraces : List Block → List (List Event → Prop)
  | [] => []
  | b :: bs => b.Traces :: blockTraces bs
end

/-- A part of an execution: outside all loops, or one iteration of an outermost
loop with the given body. -/
inductive Segment where
  | outside (t : List Event)
  | iteration (label : String) (body : Region) (t : List Event)

/-- The accesses of a segment. -/
def Segment.events : Segment → List Event
  | .outside t => t
  | .iteration _ _ t => t

/-! The executions of the program: outermost loops run any number of times. -/
mutual
def Block.Executes : Block → List Segment → Prop
  | .state nodes => fun s => ∃ vals, s = [.outside (stateTrace nodes vals)]
  | .conditional branches => branchExecutes branches
  | .loop label header body => fun s => ∃ iters : List (List Event), (∀ i ∈ iters, body.Traces i) ∧
      s = .outside (tests header) ::
        iters.flatMap (fun i => [.iteration label body i, .outside (tests header)])
def branchExecutes : List Branch → List Segment → Prop
  | [] => fun s => s = []
  | .mk cond body :: rest => fun s =>
      (∃ u, body.Executes u ∧ s = .outside (tests (cond.getD [])) :: u) ∨
        (cond ≠ none ∧ ∃ u, branchExecutes rest u ∧ s = .outside (tests (cond.getD [])) :: u)
def Region.Executes : Region → List Segment → Prop
  | .mk blocks edges start => fun s => (blocks = [] ∧ s = []) ∨
      FlowGraph.Walk (blockExecutes blocks) edges (fun b => [.outside (leave edges b)]) start s
def blockExecutes : List Block → List (List Segment → Prop)
  | [] => []
  | b :: bs => b.Executes :: blockExecutes bs
end

/-- The values the reads and tests of an execution return, in order. -/
def readValues : List Event → (String → ℤ) → List ℤ
  | [], _ => []
  | .read n :: t, σ => σ n :: readValues t σ
  | .test n :: t, σ => σ n :: readValues t σ
  | .write n v :: t, σ => readValues t (Function.update σ n v)
  | .reachLoop _ :: t, σ => readValues t σ
  | .enterRegion _ :: t, σ => readValues t σ

/-- The store an execution leaves. -/
def storeAfter : List Event → (String → ℤ) → String → ℤ
  | [], σ => σ
  | .write n v :: t, σ => storeAfter t (Function.update σ n v)
  | .read _ :: t, σ => storeAfter t σ
  | .test _ :: t, σ => storeAfter t σ
  | .reachLoop _ :: t, σ => storeAfter t σ
  | .enterRegion _ :: t, σ => storeAfter t σ

/-! ## Structured control flow -/

/-! No edge of a structured region leads back to its start block. -/
mutual
def Block.Structured : Block → Prop
  | .state _ => True
  | .conditional branches => branchesStructured branches
  | .loop _ _ body => body.Structured
def branchesStructured : List Branch → Prop
  | [] => True
  | .mk _ body :: rest => body.Structured ∧ branchesStructured rest
def Region.Structured : Region → Prop
  | .mk blocks edges start => (∀ e ∈ edges, e.dst ≠ start) ∧ blocksStructured blocks
def blocksStructured : List Block → Prop
  | [] => True
  | b :: bs => b.Structured ∧ blocksStructured bs
end

/-! The data a program names: in its states, on its edges, in its conditions and
its loop headers. -/
mutual
def Block.names : Block → List String
  | .state nodes => nodes.map AccessNode.data
  | .conditional branches => branchNames branches
  | .loop _ header body => header ++ body.names
def branchNames : List Branch → List String
  | [] => []
  | .mk cond body :: rest => cond.getD [] ++ body.names ++ branchNames rest
def Region.names : Region → List String
  | .mk blocks edges _ => blocksNames blocks ++ edges.flatMap (fun e => e.data)
def blocksNames : List Block → List String
  | [] => []
  | b :: bs => b.names ++ blocksNames bs
end

/-- A program whose control flow is structured and whose names are its arrays. -/
structure Program.WellFormed (p : Program) : Prop where
  structured : p.top.Structured
  names : ∀ n ∈ p.top.names, n ∈ p.arrays.map Prod.fst

end Fission

/-
# Fission of loop-local scalars

The pass `fission_loop_local_scalars` (loop_scalar_fission.py), in its default
mode: a size-1 transient that is touched inside loops only, and that every
outermost loop touching it must define before it reads it, is split into one
copy per such loop.
-/

namespace Fission

open FlowGraph

/-! ## Definedness -/

/-- `_FIXPOINT_ROUNDS`. -/
def fixpointRounds : ℕ := 8

/-- `_state_access`: whether a state reads the name through a node without
in-edge, and whether it writes it. -/
def stateAccess (nodes : List AccessNode) (x : String) : Bool × Bool :=
  (nodes.any (fun n => n.data == x && !n.written && n.read),
    nodes.any (fun n => n.data == x && n.written))

/-- The rounds of `_block_exit` over a loop body: the body is scanned again with
what the previous round left, until nothing changes. -/
def loopRounds (scan : Transfer) (entry : Bool) : ℕ → Bool → Bool × Bool → Bool × Bool
  | 0, _, last => last
  | k + 1, seen, _ =>
      let r := scan seen
      let next := entry || r.2
      if next = seen then (r.1, next) else loopRounds scan entry k next (r.1, next)

/-- Whether one of the branches is an else branch. -/
def hasElse : List Branch → Bool
  | [] => false
  | .mk cond _ :: rest => cond.isNone || hasElse rest

mutual
/-- `_block_exit`: whether a block is in order, and whether the scalar is defined
at its exit, from whether it is defined on entry. -/
def Block.exit (x : String) : Block → Transfer
  | .state nodes => fun entry =>
      (!(stateAccess nodes x).1 || entry, entry || (stateAccess nodes x).2)
  | .conditional branches => fun entry =>
      let results := branchScans x branches entry
      (results.all Prod.fst,
        if hasElse branches && !results.isEmpty then results.all Prod.snd
        else entry && results.all Prod.snd)
  | .loop _ header body => fun entry =>
      if x ∈ header then (false, entry)
      else loopRounds (body.scan x) entry fixpointRounds entry (true, entry)
def branchScans (x : String) : List Branch → Bool → List (Bool × Bool)
  | [], _ => []
  | .mk _ body :: rest, entry => body.scan x entry :: branchScans x rest entry
/-- `_scan`: the same for a region. -/
def Region.scan (x : String) : Region → Transfer
  | .mk blocks edges _ => fun entry =>
      let tr := blockExits x blocks
      if tr.isEmpty then (true, entry)
      else
        let out := solve tr edges entry fixpointRounds
        (blocksOk tr edges entry out &&
            edges.all (fun e => !decide (x ∈ e.data) || out e.src),
          exitOf tr edges entry out)
def blockExits (x : String) : List Block → List Transfer
  | [] => []
  | b :: bs => b.exit x :: blockExits x bs
end

/-! ## Grouping -/

mutual
/-- Whether a state in the block has an access node of the scalar. -/
def Block.touches (x : String) : Block → Bool
  | .state nodes => nodes.any (fun n => n.data == x)
  | .conditional branches => branchesTouch x branches
  | .loop _ _ body => body.touches x
def branchesTouch (x : String) : List Branch → Bool
  | [] => false
  | .mk _ body :: rest => body.touches x || branchesTouch x rest
def Region.touches (x : String) : Region → Bool
  | .mk blocks _ _ => blocksTouch x blocks
def blocksTouch (x : String) : List Block → Bool
  | [] => false
  | b :: bs => b.touches x || blocksTouch x bs
end

/-- Whether an edge of the region itself reads the scalar. -/
def Region.edgesRead (x : String) : Region → Bool
  | .mk _ edges _ => edges.any (fun e => decide (x ∈ e.data))

mutual
/-- Whether an edge of a region inside the block reads the scalar. -/
def Block.nestedEdgesRead (x : String) : Block → Bool
  | .state _ => false
  | .conditional branches => branchesEdgesRead x branches
  | .loop _ _ body => body.edgesRead x || body.nestedEdgesRead x
def branchesEdgesRead (x : String) : List Branch → Bool
  | [] => false
  | .mk _ body :: rest => body.edgesRead x || body.nestedEdgesRead x || branchesEdgesRead x rest
def Region.nestedEdgesRead (x : String) : Region → Bool
  | .mk blocks _ _ => blocksEdgesRead x blocks
def blocksEdgesRead (x : String) : List Block → Bool
  | [] => false
  | b :: bs => b.nestedEdgesRead x || blocksEdgesRead x bs
end

mutual
/-- Whether a state outside all loops touches the scalar. -/
def Block.outsideStates (x : String) : Block → Bool
  | .state nodes => nodes.any (fun n => n.data == x)
  | .conditional branches => branchesOutsideStates x branches
  | .loop _ _ _ => false
def branchesOutsideStates (x : String) : List Branch → Bool
  | [] => false
  | .mk _ body :: rest => body.outsideStates x || branchesOutsideStates x rest
def Region.outsideStates (x : String) : Region → Bool
  | .mk blocks _ _ => blocksOutsideStates x blocks
def blocksOutsideStates (x : String) : List Block → Bool
  | [] => false
  | b :: bs => b.outsideStates x || blocksOutsideStates x bs
end

mutual
/-- Whether an edge reads the scalar in a region without an enclosing loop; the
region of an outermost loop is one. -/
def Block.outsideEdges (x : String) : Block → Bool
  | .state _ => false
  | .conditional branches => branchesOutsideEdges x branches
  | .loop _ _ body => body.edgesRead x
def branchesOutsideEdges (x : String) : List Branch → Bool
  | [] => false
  | .mk _ body :: rest => body.outsideEdges x || branchesOutsideEdges x rest
def Region.outsideEdges (x : String) : Region → Bool
  | .mk blocks edges _ =>
      edges.any (fun e => decide (x ∈ e.data)) || blocksOutsideEdges x blocks
def blocksOutsideEdges (x : String) : List Block → Bool
  | [] => false
  | b :: bs => b.outsideEdges x || blocksOutsideEdges x bs
end

/-- An outermost loop. -/
structure OuterLoop where
  label : String
  header : List String
  body : Region

mutual
/-- The outermost loops. -/
def Block.loops : Block → List OuterLoop
  | .state _ => []
  | .conditional branches => branchesLoops branches
  | .loop label header body => [⟨label, header, body⟩]
def branchesLoops : List Branch → List OuterLoop
  | [] => []
  | .mk _ body :: rest => body.loops ++ branchesLoops rest
def Region.loops : Region → List OuterLoop
  | .mk blocks _ _ => blocksLoops blocks
def blocksLoops : List Block → List OuterLoop
  | [] => []
  | b :: bs => b.loops ++ blocksLoops bs
end

/-- Whether the outermost loop with this body is one of the scalar's groups. -/
def grouped (x : String) (body : Region) : Bool := body.touches x || body.nestedEdgesRead x

/-- The outermost loops that touch the scalar. -/
def groups (x : String) (r : Region) : List OuterLoop := r.loops.filter (fun l => grouped x l.body)

/-! ## The split -/

/-- The name of the copy for a loop: `<name>_f<label>`. -/
def copyName (x label : String) : String := x ++ "_f" ++ label

def renameName (old new n : String) : String := if n = old then new else n

/-! `_rename_in_region`: access nodes, edges and branch conditions; loop headers
are left alone. -/
mutual
def Block.rename (old new : String) : Block → Block
  | .state nodes => .state (nodes.map (fun n => { n with data := renameName old new n.data }))
  | .conditional branches => .conditional (branchesRename old new branches)
  | .loop label header body => .loop label header (body.rename old new)
def branchesRename (old new : String) : List Branch → List Branch
  | [] => []
  | .mk cond body :: rest =>
      .mk (cond.map (List.map (renameName old new))) (body.rename old new) ::
        branchesRename old new rest
def Region.rename (old new : String) : Region → Region
  | .mk blocks edges start =>
      .mk (blocksRename old new blocks)
        (edges.map (fun e => { e with data := e.data.map (renameName old new) })) start
def blocksRename (old new : String) : List Block → List Block
  | [] => []
  | b :: bs => b.rename old new :: blocksRename old new bs
end

mutual
/-- Every grouped outermost loop gets its copy. -/
def Block.split (x : String) : Block → Block
  | .state nodes => .state nodes
  | .conditional branches => .conditional (branchesSplit x branches)
  | .loop label header body =>
      .loop label header (if grouped x body then body.rename x (copyName x label) else body)
def branchesSplit (x : String) : List Branch → List Branch
  | [] => []
  | .mk cond body :: rest => .mk cond (body.split x) :: branchesSplit x rest
def Region.split (x : String) : Region → Region
  | .mk blocks edges start => .mk (blocksSplit x blocks) edges start
def blocksSplit (x : String) : List Block → List Block
  | [] => []
  | b :: bs => b.split x :: blocksSplit x bs
end

/-- Whether the pass splits the scalar: it is a size-1 transient, untouched
outside loops, and every group proves it dead on entry. -/
def Program.splits (p : Program) (x : String) : Bool :=
  p.arrays.any (fun a => a.1 == x && a.2.transient && a.2.totalSize == 1) &&
    !p.top.outsideEdges x && !p.top.outsideStates x && !(groups x p.top).isEmpty &&
    (groups x p.top).all (fun l => !decide (x ∈ l.header) && (l.body.scan x false).1)

/-- Add the copies, one loop after another; a name that is taken is an error. -/
def addCopies (x : String) (desc : Desc) :
    List OuterLoop → List (String × Desc) → Except String (List (String × Desc))
  | [], arrays => .ok arrays
  | l :: ls, arrays =>
      if copyName x l.label ∈ arrays.map Prod.fst then
        .error s!"loop_scalar_fission: \x7bcopyName x l.label\x7d already exists"
      else addCopies x desc ls (arrays ++ [(copyName x l.label, desc)])

/-- One scalar of `fission_loop_local_scalars`. -/
def fissionScalar (p : Program) (x : String) : Except String Program :=
  if p.splits x then do
    let desc := ((p.arrays.find? (fun a => a.1 == x)).map Prod.snd).getD ⟨true, 1⟩
    let arrays ← addCopies x desc (groups x p.top) p.arrays
    let top := p.top.split x
    let dead := !top.touches x && !top.edgesRead x && !top.nestedEdgesRead x
    return ⟨if dead then arrays.filter (fun a => a.1 != x) else arrays, top⟩
  else return p

/-- `fission_loop_local_scalars`, by default. -/
def fissionLoopLocalScalars (p : Program) : Except String Program :=
  (p.arrays.map Prod.fst).foldlM fissionScalar p

end Fission
