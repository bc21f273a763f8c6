/-
# Sinking scalar stores

The bridge renders a load as the name of the memory it reads, so a value that was loaded
before a store must not be used after it.  For a scalar `fir.alloca` whose address never
escapes the pass moves each write below the last operation of its block that uses a value
computed from an earlier load.

The operations, their operands and the nesting of the blocks never change: they are the
tables of `Ir`.  Only the order of the operations within a block does, the `Layout`.
-/
import Mathlib.Data.List.Nodup
import Mathlib.Logic.Relation

namespace SinkStores

/-! ## Operations and blocks -/

/-- The number of a block. -/
abbrev BlockId := ℕ

/-- The number of an SSA value. -/
abbrev ValueId := ℕ

/-- An operation, as far as the pass tells operations apart. -/
inductive Op
  /-- `fir.alloca`, and whether the allocated type is a scalar. -/
  | alloca (scalar : Bool) (sizes : List ValueId) (result : ValueId)
  /-- `hlfir.declare`. -/
  | declare (memref : ValueId) (others results : List ValueId)
  /-- `fir.convert`. -/
  | convert (value result : ValueId)
  /-- `fir.load`. -/
  | load (memref result : ValueId)
  /-- `fir.store`. -/
  | store (value memref : ValueId)
  /-- `hlfir.assign`, and whether the type of its right-hand side is a scalar. -/
  | assign (rhs lhs : ValueId) (scalarRhs : Bool)
  /-- A terminator of a block. -/
  | terminator (operands : List ValueId)
  /-- Any other operation, with the blocks of its regions. -/
  | other (operands results : List ValueId) (blocks : List BlockId)
deriving DecidableEq

namespace Op

/-- The operands. -/
def operands : Op → List ValueId
  | .alloca _ sizes _ => sizes
  | .declare memref others _ => memref :: others
  | .convert value _ => [value]
  | .load memref _ => [memref]
  | .store value memref => [value, memref]
  | .assign rhs lhs _ => [rhs, lhs]
  | .terminator operands => operands
  | .other operands _ _ => operands

/-- The results. -/
def results : Op → List ValueId
  | .alloca _ _ result => [result]
  | .declare _ _ results => results
  | .convert _ result => [result]
  | .load _ result => [result]
  | .other _ results _ => results
  | _ => []

/-- The blocks of the regions. -/
def blocks : Op → List BlockId
  | .other _ _ blocks => blocks
  | _ => []

/-- `hasTrait<IsTerminator>`. -/
def isTerminator : Op → Bool
  | .terminator _ => true
  | _ => false

/-- A `fir.alloca` of a scalar. -/
def isScalarAlloca : Op → Bool
  | .alloca scalar _ _ => scalar
  | _ => false

end Op

/-- The tables of a module: its operations `ι`, how its blocks nest, and the use list of each
value. -/
structure Ir (ι : Type) where
  op : ι → Op
  blockOf : ι → BlockId
  parentOf : BlockId → Option ι
  /-- The arguments of a block. -/
  args : BlockId → List ValueId
  /-- How many regions a block is nested in. -/
  level : BlockId → ℕ
  /-- The owners of the uses of a value, in the order of its use list. -/
  uses : ValueId → List ι
  /-- The operations in the order of the walk. -/
  walk : List ι
  /-- A bound for the chains of re-declares. -/
  depth : ℕ
  /-- Whether a block dominates another block of its region. -/
  dominates : BlockId → BlockId → Prop
  level_top : ∀ {b}, parentOf b = none → level b = 0
  level_parent : ∀ {b o}, parentOf b = some o → level b = level (blockOf o) + 1
  parent_blocks : ∀ {b o}, b ∈ (op o).blocks ↔ parentOf b = some o
  parent_dominates : ∀ {b b'}, dominates b b' → parentOf b = parentOf b'
  not_dominates_self : ∀ {b}, ¬ dominates b b
  mem_uses : ∀ {v o}, o ∈ uses v ↔ v ∈ (op o).operands
  mem_walk : ∀ {o}, (op o).isScalarAlloca = true → o ∈ walk
  result_unique : ∀ {v o o'}, v ∈ (op o).results → v ∈ (op o').results → o = o'
  args_unique : ∀ {v b o}, v ∈ args b → v ∉ (op o).results

/-- The order of the operations of each block. -/
abbrev Layout (ι : Type) := BlockId → List ι

variable {ι : Type} [DecidableEq ι]

namespace Ir

/-- Each operation stands in its block, once. -/
structure Arranged (M : Ir ι) (L : Layout ι) : Prop where
  mem_iff : ∀ {b o}, o ∈ L b ↔ M.blockOf o = b
  nodup : ∀ b, (L b).Nodup

/-- The climb of `Block::findAncestorOpInBlock`. -/
def climb (M : Ir ι) (b : BlockId) : ℕ → ι → Option ι
  | 0, _ => none
  | n + 1, o => if M.blockOf o = b then some o else (M.parentOf (M.blockOf o)).bind (M.climb b n)

/-- `Block::findAncestorOpInBlock`. -/
def findAncestorOpInBlock (M : Ir ι) (b : BlockId) (o : ι) : Option ι :=
  M.climb b (M.level (M.blockOf o) + 1) o

/-- `Operation::isBeforeInBlock`. -/
def isBeforeInBlock (M : Ir ι) (L : Layout ι) (o o' : ι) : Bool :=
  (L (M.blockOf o)).idxOf o < (L (M.blockOf o)).idxOf o'

/-- An operation put behind another one of a list. -/
def insertAfter (last o : ι) : List ι → List ι
  | [] => []
  | x :: l => if x = last then x :: o :: l else x :: insertAfter last o l

/-- `Operation::moveAfter`, within a block. -/
def moveAfter (M : Ir ι) (L : Layout ι) (o last : ι) : Layout ι :=
  Function.update L (M.blockOf o) (insertAfter last o ((L (M.blockOf o)).erase o))

/-! ## The accesses to an alloca -/

end Ir

/-- The loads of and the writes into some memory. -/
structure Accesses (ι : Type) where
  loads : List ι
  writes : List ι

namespace Ir

/-- One use of `collectAccesses`, with the calls it makes of itself. -/
def collectUse (M : Ir ι) (collect : Accesses ι → ValueId → Option (Accesses ι)) (v : ValueId)
    (acc : Accesses ι)
    (u : ι) : Option (Accesses ι) :=
  match M.op u with
  | .declare memref _ results => if v = memref then results.foldlM collect acc else none
  | .convert _ result => collect acc result
  | .load _ _ => some { acc with loads := acc.loads ++ [u] }
  | .store value _ => if value = v then none else some { acc with writes := acc.writes ++ [u] }
  | .assign rhs _ scalarRhs =>
    if rhs = v ∨ scalarRhs = false then none else some { acc with writes := acc.writes ++ [u] }
  | _ => none

/-- `collectAccesses`; `none` where it returns false. -/
def collectAccesses (M : Ir ι) : ℕ → Accesses ι → ValueId → Option (Accesses ι)
  | 0, _, _ => none
  | n + 1, acc, v => (M.uses v).foldlM (M.collectUse (M.collectAccesses n) v) acc

/-! ## The last use of an overwritten value -/

end Ir

/-- The stack of the values to follow, the operations seen, and the last use so far. -/
structure Search (ι : Type) where
  work : List ValueId
  seen : List ι
  last : Option ι

namespace Ir

/-- One user of a value; `none` where `write` cannot follow. -/
def visitUser (M : Ir ι) (L : Layout ι) (write : ι) (s : Search ι) (user : ι) : Option (Search ι) :=
  if user = write then some s else
  match M.findAncestorOpInBlock (M.blockOf write) user with
  | none => none
  | some top =>
    if (M.op top).isTerminator then none else
    some
      { work := if top ∈ s.seen then s.work else (M.op top).results.reverse ++ s.work
        seen := if top ∈ s.seen then s.seen else top :: s.seen
        last :=
          if M.isBeforeInBlock L write top &&
            s.last.all (fun last => M.isBeforeInBlock L last top) then some top
          else s.last }

/-- The work loop. -/
def followUses (M : Ir ι) (L : Layout ι) (write : ι) : ℕ → Search ι → Option (Search ι)
  | 0, s => some s
  | n + 1, s => match s.work with
    | [] => some s
    | v :: work => ((M.uses v).foldlM (M.visitUser L write) { s with work }).bind
        (M.followUses L write n)

/-- The loaded values the search starts from: those of the loads ahead of `write` in its block. -/
def loadedBefore (M : Ir ι) (L : Layout ι) (write : ι) (loads : List ι) : List ValueId :=
  (loads.filter (fun ld => M.blockOf ld = M.blockOf write ∧ M.isBeforeInBlock L ld write)).flatMap
    (fun ld => (M.op ld).results)

/-- The most values that come onto the stack. -/
def workBound (M : Ir ι) (L : Layout ι) (write : ι) (loads : List ι) : ℕ :=
  (M.loadedBefore L write loads).length +
    ((L (M.blockOf write)).flatMap (fun o => (M.op o).results)).length

/-- `lastUseOfOverwrittenValue`; `none` stands for the null pointer. -/
def lastUseOfOverwrittenValue (M : Ir ι) (L : Layout ι) (write : ι) (loads : List ι) : Option ι :=
  match M.followUses L write (M.workBound L write loads)
    { work := (M.loadedBefore L write loads).reverse, seen := [], last := none } with
  | none => some write
  | some s => s.last

/-! ## The pass -/

/-- Whether an operation, or what it is nested in, lies behind `write` and not behind `last`. -/
def inRange (M : Ir ι) (L : Layout ι) (write last o : ι) : Bool :=
  match M.findAncestorOpInBlock (M.blockOf write) o with
  | none => false
  | some top => M.isBeforeInBlock L write top && !M.isBeforeInBlock L last top

/-- What the pass does with one write. -/
def sinkWrite (M : Ir ι) (acc : Accesses ι) (L : Layout ι) (write : ι) : Layout ι :=
  match M.lastUseOfOverwrittenValue L write acc.loads with
  | none => L
  | some last =>
    if last = write then L
    else if acc.loads.any (M.inRange L write last) || acc.writes.any (M.inRange L write last) then L
    else M.moveAfter L write last

/-- What the pass does with one alloca. -/
def sinkAlloca (M : Ir ι) (L : Layout ι) (o : ι) : Layout ι :=
  match M.op o with
  | .alloca true _ result =>
    match M.collectAccesses M.depth ⟨[], []⟩ result with
    | none => L
    | some acc => if acc.loads.isEmpty then L else acc.writes.foldl (M.sinkWrite acc) L
  | _ => L

/-- `runOnOperation`. -/
def runOnOperation (M : Ir ι) (L : Layout ι) : Layout ι :=
  M.walk.foldl M.sinkAlloca L

end Ir

end SinkStores
