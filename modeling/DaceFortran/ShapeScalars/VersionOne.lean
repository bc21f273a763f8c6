/-
# Code over scalar integer variables

The blocks `VersionShapeScalars` rewrites: stores and loads of scalar integer
declares, the arithmetic an extent goes through, allocations, and branches and loops
nested to any depth.  A run keeps, for every SSA value, the cells its extent arithmetic
comes from, and for every live array the cells its extents were loaded from with the
values they had.
-/
import Mathlib.Logic.Function.Iterate
import Mathlib.Data.List.Basic
import Mathlib.Data.Int.Notation

namespace ShapeScalars

/-! ## Syntax -/

/-- Storage of a scalar: the declare's own, that of a version of it, or the snapshot one of its
loads is bound to. -/
inductive Cell
  | own (d : ℕ)
  | version (d n : ℕ)
  | frozen (d dst : ℕ)
  deriving DecidableEq

/-- The declare a cell was made for. -/
def Cell.scalar : Cell → ℕ
  | .own d | .version d _ | .frozen d _ => d

/-- The SSA values and everything else a function computes on. -/
structure Data (S : Type) where
  env : ℕ → ℤ
  other : S

/-- Operations without regions. -/
inductive Op (S : Type)
  /-- `fir.load` -/
  | load (dst : ℕ) (cell : Cell)
  /-- `fir.store`, or `hlfir.assign` to a scalar -/
  | write (cell : Cell) (value : ℕ)
  /-- a load of `d`, an assign of the value to the load's snapshot, and a load of the snapshot -/
  | freeze (dst d : ℕ)
  /-- `fir.convert`, `arith.muli`, `arith.addi`, `arith.subi`, `arith.divsi` or `arith.select` -/
  | extent (dst : ℕ) (operands : List ℕ) (f : List ℤ → ℤ)
  /-- `fir.allocmem` -/
  | allocmem (extents : List ℕ)
  /-- `fir.freemem`, of the arrays (by their number) the data names -/
  | freemem (dead : Data S → ℕ → Bool)
  /-- an operation on other data -/
  | other (f : Data S → Data S)

/-- A block: its operations in order, those with regions holding blocks of their own.  The first
region of an `scf.while` is the body of the loop, its second a branch at the end of it. -/
inductive Block (S : Type)
  | done
  | op (o : Op S) (rest : Block S)
  | branch (cond : Data S → Bool) (thenBlock elseBlock rest : Block S)
  | loop (cond : Data S → Bool) (body rest : Block S)

variable {S : Type}

/-! ## Runs -/

/-- A live array: its number, a cell an extent of it was loaded from, and the value then. -/
structure Live where
  array : ℕ
  cell : Cell
  value : ℤ
  deriving DecidableEq

/-- A state: the data, the scalars, the cells each SSA value comes from, the live arrays, the
number of the next array, how many stores each scalar has seen, and the blocks left to run. -/
structure State (S : Type) where
  data : Data S
  cells : Cell → ℤ
  source : ℕ → List Cell
  live : List Live
  next : ℕ
  stored : ℕ → ℕ
  todo : List (Block S)

/-- The SSA value `dst` is computed. -/
def Data.set (m : Data S) (dst : ℕ) (v : ℤ) : Data S :=
  { m with env := Function.update m.env dst v }

/-- One operation, the blocks left to run being `todo`. -/
def exec (s : State S) (todo : List (Block S)) : Op S → State S
  | .load dst c =>
    { s with
      data := s.data.set dst (s.cells c)
      source := Function.update s.source dst [c]
      todo := todo }
  | .write c v =>
    { s with
      cells := Function.update s.cells c (s.data.env v)
      stored := Function.update s.stored c.scalar (s.stored c.scalar + 1)
      todo := todo }
  | .freeze dst d =>
    { s with
      data := s.data.set dst (s.cells (.own d))
      cells := Function.update s.cells (.frozen d dst) (s.cells (.own d))
      source := Function.update s.source dst [.frozen d dst]
      todo := todo }
  | .extent dst operands f =>
    { s with
      data := s.data.set dst (f (operands.map s.data.env))
      source := Function.update s.source dst (operands.flatMap s.source)
      todo := todo }
  | .allocmem extents =>
    { s with
      live := (extents.flatMap s.source).map (fun c => ⟨s.next, c, s.cells c⟩) ++ s.live
      next := s.next + 1
      todo := todo }
  | .freemem dead =>
    { s with live := s.live.filter (fun e => !dead s.data e.array), todo := todo }
  | .other f => { s with data := f s.data, todo := todo }

/-- One step; a function that has returned stays as it is. -/
def step (s : State S) : State S :=
  match s.todo with
  | [] => s
  | .done :: k => { s with todo := k }
  | .op o r :: k => exec s (r :: k) o
  | .branch c t e r :: k => { s with todo := (if c s.data then t else e) :: r :: k }
  | .loop c body r :: k =>
    { s with todo := if c s.data then body :: .loop c body r :: k else r :: k }

variable {s : State S} {k : List (Block S)}

theorem step_nil (h : s.todo = []) : step s = s := by
  simp only [step, h]

theorem step_done (h : s.todo = .done :: k) :
    step s = { s with todo := k } := by
  simp only [step, h]

theorem step_op {o : Op S} {r : Block S}
    (h : s.todo = .op o r :: k) : step s = exec s (r :: k) o := by
  simp only [step, h]

theorem step_branch {c : Data S → Bool} {t e r : Block S}
    (h : s.todo = .branch c t e r :: k) :
    step s = { s with todo := (if c s.data then t else e) :: r :: k } := by
  simp only [step, h]

theorem step_loop {c : Data S → Bool} {body r : Block S}
    (h : s.todo = .loop c body r :: k) :
    step s = { s with
      todo := if c s.data then body :: .loop c body r :: k else r :: k } := by
  simp only [step, h]

/-- The state after `n` steps. -/
def run (s : State S) (n : ℕ) : State S := step^[n] s

theorem run_succ (s : State S) (n : ℕ) : run s (n + 1) = step (run s n) :=
  Function.iterate_succ_apply' step n s

/-- A function on entry: nothing computed from a scalar, nothing allocated. -/
def start (b : Block S) (data : Data S) (cells : Cell → ℤ) : State S :=
  ⟨data, cells, fun _ => [], [], 0, fun _ => 0, [b]⟩

/-- The SSA value an operation loads from a scalar, and what it will be. -/
def Op.read (cells : Cell → ℤ) : Op S → Option (ℕ × ℤ)
  | .load dst c => some (dst, cells c)
  | .freeze dst d => some (dst, cells (.own d))
  | _ => none

/-- The load a state is about to do. -/
def nextRead (s : State S) : Option (ℕ × ℤ) :=
  match s.todo with
  | .op o _ :: _ => o.read s.cells
  | _ => none

/-! ## Operations of a block -/

/-- The operations of a block in program order, those in regions included. -/
def Block.ops : Block S → List (Op S)
  | .done => []
  | .op o r => o :: r.ops
  | .branch _ t e r => t.ops ++ e.ops ++ r.ops
  | .loop _ body r => body.ops ++ r.ops

/-- The operation stores to the declare. -/
def Op.stores (d : ℕ) : Op S → Bool
  | .write c _ => decide (c = .own d)
  | _ => false

/-- The number of stores in a block, regions included. -/
def Block.storeCount (d : ℕ) (b : Block S) : ℕ := b.ops.countP (Op.stores d)

/-- The number of stores at the top level of a block. -/
def Block.topStores (d : ℕ) : Block S → ℕ
  | .done => 0
  | .op o r => (if o.stores d then 1 else 0) + r.topStores d
  | .branch _ _ _ r => r.topStores d
  | .loop _ _ r => r.topStores d

variable (d : ℕ)

@[simp] theorem storeCount_done : (Block.done : Block S).storeCount d = 0 := rfl

@[simp] theorem storeCount_op (o : Op S) (r : Block S) :
    (Block.op o r).storeCount d = (if o.stores d then 1 else 0) + r.storeCount d := by
  show (o :: r.ops).countP (Op.stores d) = _
  rw [List.countP_cons, Nat.add_comm]
  rfl

@[simp] theorem storeCount_branch (c : Data S → Bool) (t e r : Block S) :
    (Block.branch c t e r).storeCount d =
      t.storeCount d + e.storeCount d + r.storeCount d := by
  show (t.ops ++ e.ops ++ r.ops).countP (Op.stores d) = _
  rw [List.countP_append, List.countP_append]
  rfl

@[simp] theorem storeCount_loop (c : Data S → Bool) (body r : Block S) :
    (Block.loop c body r).storeCount d = body.storeCount d + r.storeCount d := by
  show (body.ops ++ r.ops).countP (Op.stores d) = _
  rw [List.countP_append]
  rfl

theorem topStores_le_storeCount (b : Block S) : b.topStores d ≤ b.storeCount d := by
  induction b with
  | done => simp [Block.topStores]
  | op o r ih =>
    rw [storeCount_op, Block.topStores]
    omega
  | branch c t e r _ _ ih =>
    rw [storeCount_branch, Block.topStores]
    omega
  | loop c body r _ ih =>
    rw [storeCount_loop, Block.topStores]
    omega

end ShapeScalars

/-
# `VersionShapeScalars`

What the pass does to one scalar integer declare: leaves it alone, gives every store
at the top level of one block a version of its own, or binds every load that feeds an
allocation to a snapshot.
-/

namespace ShapeScalars

variable {S : Type}

/-! ## Loads that feed an allocation -/

/-- The operation is an allocation with the value among its extents. -/
def Op.allocates (v : ℕ) : Op S → Bool
  | .allocmem extents => decide (v ∈ extents)
  | _ => false

/-- The result of extent arithmetic on the value. -/
def Op.extentOf? (v : ℕ) : Op S → Option ℕ
  | .extent dst operands _ => if v ∈ operands then some dst else none
  | _ => none

/-- The forward walk from the values in `work`: the last one pushed is followed first, an operation
is followed once, and no more than `budget` values are. -/
def forwardWalk (ops : List (Op S)) : ℕ → List ℕ → List ℕ → Bool
  | 0, _, _ => false
  | _ + 1, [], _ => false
  | budget + 1, cur :: work, seen =>
    if ops.any (Op.allocates cur) then true
    else
      let fresh := (ops.filterMap (Op.extentOf? cur)).filter (· ∉ seen)
      forwardWalk ops budget (fresh.reverse ++ work) (fresh ++ seen)

/-- `feedsAllocateExtent`. -/
def feedsAllocateExtent (ops : List (Op S)) (v : ℕ) : Bool := forwardWalk ops 256 [v] []

/-- The operation is a load of the declare that feeds an allocation. -/
def Op.extentLoad (ops : List (Op S)) (d : ℕ) : Op S → Bool
  | .load dst c => decide (c = .own d) && feedsAllocateExtent ops dst
  | _ => false

/-! ## The decision -/

/-- Some block outside every loop holds all the `total` stores at its top level: the block itself
(`inOneBlock`) or one of a branch in it (`nestedBlock`). -/
def nestedBlock (d total : ℕ) : Block S → Bool
  | .done => false
  | .op _ r => nestedBlock d total r
  | .branch _ t e r =>
    (decide (t.topStores d = total) || nestedBlock d total t) ||
      (decide (e.topStores d = total) || nestedBlock d total e) || nestedBlock d total r
  | .loop _ _ r => nestedBlock d total r

@[inherit_doc nestedBlock]
def inOneBlock (d total : ℕ) (b : Block S) : Bool :=
  decide (b.topStores d = total) || nestedBlock d total b

/-- A store comes after the first load that feeds an allocation, in program order. -/
def hazard (d : ℕ) (b : Block S) : Bool :=
  ((b.ops.dropWhile fun o => !o.extentLoad b.ops d).tail).any (Op.stores d)

/-- What becomes of a declare. -/
inductive Decision
  | untouched
  | versioned
  | frozen
  deriving DecidableEq

/-- The tests of `versionOne`, in order. -/
def decision (d : ℕ) (b : Block S) : Decision :=
  if b.storeCount d < 2 then .untouched
  else if !hazard d b then .untouched
  else if inOneBlock d (b.storeCount d) b then .versioned
  else .frozen

/-! ## Versions -/

/-- The cell of the scalar after `n` stores: the first store keeps the declare. -/
def current (d n : ℕ) : Cell := if n ≤ 1 then .own d else .version d n

/-- `redirectMemref`. -/
def redirect (d : ℕ) (target c : Cell) : Cell := if c = .own d then target else c

/-- One operation of the forward pass, after `n` stores: a load reads the version of the last
store, a store writes the next. -/
def Op.atVersion (d n : ℕ) : Op S → Op S
  | .load dst c => .load dst (redirect d (current d n) c)
  | .write c v => .write (redirect d (current d (n + 1)) c) v
  | o => o

/-- The forward pass over the top level of the block, `n` stores into it. -/
def versionBlock (d : ℕ) : ℕ → Block S → Block S
  | _, .done => .done
  | n, .op o r => .op (o.atVersion d n) (versionBlock d (n + if o.stores d then 1 else 0) r)
  | n, .branch c t e r => .branch c t e (versionBlock d n r)
  | n, .loop c body r => .loop c body (versionBlock d n r)

/-- The forward pass on the block that holds all the stores, below this one. -/
def versionNested (d total : ℕ) : Block S → Block S
  | .done => .done
  | .op o r => .op o (versionNested d total r)
  | .branch c t e r =>
    .branch c (if t.topStores d = total then versionBlock d 0 t else versionNested d total t)
      (if e.topStores d = total then versionBlock d 0 e else versionNested d total e)
      (versionNested d total r)
  | .loop c body r => .loop c body (versionNested d total r)

/-- The straight-line case. -/
def version (d total : ℕ) (b : Block S) : Block S :=
  if b.topStores d = total then versionBlock d 0 b else versionNested d total b

/-! ## Snapshots -/

/-- One operation of `freezeExtents`. -/
def Op.freezeExtent (ops : List (Op S)) (d : ℕ) : Op S → Op S
  | .load dst c => if (Op.load dst c : Op S).extentLoad ops d then .freeze dst d else .load dst c
  | o => o

/-- `freezeExtents`. -/
def freezeExtents (ops : List (Op S)) (d : ℕ) : Block S → Block S
  | .done => .done
  | .op o r => .op (o.freezeExtent ops d) (freezeExtents ops d r)
  | .branch c t e r =>
    .branch c (freezeExtents ops d t) (freezeExtents ops d e) (freezeExtents ops d r)
  | .loop c body r => .loop c (freezeExtents ops d body) (freezeExtents ops d r)

/-! ## The pass -/

/-- Operations of the code before the pass: every cell is a declare's own. -/
def Op.Source : Op S → Prop
  | .load _ c | .write c _ => c = .own c.scalar
  | .freeze _ _ => False
  | _ => True

/-- A function: its scalar integer declares, those of them that are dummy arguments, and its
body. -/
structure Function (S : Type) where
  declares : List ℕ
  declares_nodup : declares.Nodup
  dummies : List ℕ
  body : Block S
  body_source : ∀ o ∈ body.ops, o.Source

/-- `versionOne`. -/
def versionOne (d : ℕ) (b : Block S) : Block S :=
  match decision d b with
  | .untouched => b
  | .versioned => version d (b.storeCount d) b
  | .frozen => freezeExtents b.ops d b

/-- `runOnOperation` on one function: the declares in order. -/
def versionShapeScalars (declares : List ℕ) (b : Block S) : Block S :=
  declares.foldl (fun b d => versionOne d b) b

end ShapeScalars
