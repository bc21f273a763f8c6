/-
# Operations of a block with a while loop

The part of the intermediate code that trip-counted loops are found in: operations over
numbered values, loads and stores at addresses, any other operation by its effect, and
`scf.while` with an `scf.if` in its before region.  Constants are operands; where one is
materialised in a block it stands as `.const`, which does nothing.
-/
import Mathlib.Data.Int.Notation
import Mathlib.Data.List.Basic

namespace CountedLoops

/-! ## Values and memory -/

/-- An operand: an integer constant or a numbered value. -/
inductive Operand where
  | lit (k : ℤ)
  | val (v : ℕ)
  deriving DecidableEq

/-- Values by number. -/
abbrev Env := ℕ → ℤ

def Operand.eval (env : Env) : Operand → ℤ
  | .lit k => k
  | .val v => env v

/-- The addresses of a function: the cell behind each, which are a bare `fir.alloca`, and which are
`taken` by something other than the loads and stores listed. -/
structure Addresses where
  cell : ℕ → ℕ
  alloca : ℕ → Bool
  taken : ℕ → Bool
  own : ∀ p, alloca p = true → taken p = false → ∀ q, cell q = cell p → q = p

/-- The cells of scalars, and the rest of the memory. -/
@[ext] structure Memory (M : Type) where
  cells : ℕ → ℤ
  rest : M

variable {M : Type}

def Memory.set (m : Memory M) (c : ℕ) (x : ℤ) : Memory M :=
  { m with cells := Function.update m.cells c x }

/-! ## Operations -/

inductive BinOp where
  | add
  | sub
  | div
  deriving DecidableEq

/-- `arith.divsi` truncates towards zero. -/
def BinOp.eval : BinOp → ℤ → ℤ → ℤ
  | .add => (· + ·)
  | .sub => (· - ·)
  | .div => Int.tdiv

/-- Any other operation, with what the pass looks at: whether it has regions, the values it uses and
the addresses `fir.store`s inside it store to.  It cannot reach an alloca that nothing takes. -/
structure Other (A : Addresses) (M : Type) where
  regions : Bool
  result : ℕ
  uses : List ℕ
  stores : List ℕ
  effect : Env → Memory M → ℤ × Memory M
  effect_congr : ∀ env env', (∀ v ∈ uses, env v = env' v) → effect env = effect env'
  effect_frame : ∀ p, A.alloca p = true → A.taken p = false → ∀ env m x,
    effect env (m.set (A.cell p) x) = ((effect env m).1, (effect env m).2.set (A.cell p) x)

inductive Op (A : Addresses) (M : Type) where
  | const
  | load (v p : ℕ)
  | store (x : Operand) (p : ℕ)
  | bin (op : BinOp) (v : ℕ) (a b : Operand)
  | other (o : Other A M)

variable {A : Addresses}

/-- The values an operand names. -/
def Operand.uses : Operand → List ℕ
  | .lit _ => []
  | .val v => [v]

def Op.uses : Op A M → List ℕ
  | .const | .load _ _ => []
  | .store x _ => x.uses
  | .bin _ _ a b => a.uses ++ b.uses
  | .other o => o.uses

/-- The values an operation defines. -/
def Op.results : Op A M → List ℕ
  | .const | .store _ _ => []
  | .load v _ | .bin _ v _ _ => [v]
  | .other o => [o.result]

/-- The operation loads from the address or stores to it. -/
def Op.touches (p : ℕ) : Op A M → Bool
  | .load _ q | .store _ q => decide (q = p)
  | _ => false

/-- A `fir.store` to the address, also one inside the operation. -/
def Op.storesTo (p : ℕ) : Op A M → Bool
  | .store _ q => decide (q = p)
  | .other o => decide (p ∈ o.stores)
  | _ => false

def Op.hasRegions : Op A M → Bool
  | .other o => o.regions
  | _ => false

def Op.isConst : Op A M → Bool
  | .const => true
  | _ => false

def Op.run : Op A M → Env × Memory M → Env × Memory M
  | .const, s => s
  | .load v p, (env, m) => (Function.update env v (m.cells (A.cell p)), m)
  | .store x p, (env, m) => (env, m.set (A.cell p) (x.eval env))
  | .bin op v a b, (env, m) => (Function.update env v (op.eval (a.eval env) (b.eval env)), m)
  | .other o, (env, m) => (Function.update env o.result (o.effect env m).1, (o.effect env m).2)

def runOps (ops : List (Op A M)) (s : Env × Memory M) : Env × Memory M :=
  ops.foldl (fun s o => o.run s) s

/-! ## The while loop -/

/-- `scf.if` -/
structure IfOp (A : Addresses) (M : Type) where
  cond : Operand
  results : List ℕ
  thenOps : List (Op A M)
  thenYield : List Operand
  elseBlock : Option (List (Op A M) × List Operand)

inductive Predicate where
  | sgt
  | sge
  | slt
  | sle
  | eq
  | ne
  deriving DecidableEq

def Predicate.eval : Predicate → ℤ → ℤ → Bool
  | .sgt, a, b => decide (b < a)
  | .sge, a, b => decide (b ≤ a)
  | .slt, a, b => decide (a < b)
  | .sle, a, b => decide (a ≤ b)
  | .eq, a, b => decide (a = b)
  | .ne, a, b => decide (a ≠ b)

/-- The operations of a before region. -/
inductive BeforeOp (A : Addresses) (M : Type) where
  | op (o : Op A M)
  | cmpi (p : Predicate) (v : ℕ) (a b : Operand)
  | ifOp (i : IfOp A M)
  | trunci (v : ℕ) (a : Operand)

def BeforeOp.isConst : BeforeOp A M → Bool
  | .op o => o.isConst
  | _ => false

/-- `scf.while` with the number of its results and its initial values. -/
structure WhileOp (A : Addresses) (M : Type) where
  results : ℕ
  inits : List Operand
  before : List (BeforeOp A M)
  cond : Operand
  condArgs : List Operand
  after : List (Op A M)

/-- The results of an `scf.if`, bound to the values its branch yields. -/
def bindResults (env : Env) (rs : List ℕ) (xs : List ℤ) : Env :=
  fun v => ((rs.zip xs).lookup v).getD (env v)

/-- One turn of a before region: values, memory and the memory each then branch started with. -/
structure Turn (M : Type) where
  env : Env
  memory : Memory M
  entries : List (Memory M)

/-- The values an operation of a before region defines in it. -/
def BeforeOp.results : BeforeOp A M → List ℕ
  | .op o => o.results
  | .cmpi _ v _ _ | .trunci v _ => [v]
  | .ifOp i => i.results

def BeforeOp.run : BeforeOp A M → Turn M → Turn M
  | .op o, t => { t with env := (o.run (t.env, t.memory)).1, memory := (o.run (t.env, t.memory)).2 }
  | .cmpi p v a b, t =>
    { t with env := Function.update t.env v (if p.eval (a.eval t.env) (b.eval t.env) then 1
      else 0) }
  | .trunci v a, t => { t with env := Function.update t.env v (a.eval t.env % 2) }
  | .ifOp i, t =>
    if i.cond.eval t.env ≠ 0 then
      let s := runOps i.thenOps (t.env, t.memory)
      ⟨bindResults t.env i.results (i.thenYield.map fun x => x.eval s.1), s.2,
        t.entries ++ [t.memory]⟩
    else
      match i.elseBlock with
      | none => t
      | some (ops, yields) =>
        let s := runOps ops (t.env, t.memory)
        { t with
          env := bindResults t.env i.results (yields.map fun x => x.eval s.1)
          memory := s.2 }

/-- The before region; the values defined outside the loop are `env`. -/
def WhileOp.turn (w : WhileOp A M) (env : Env) (m : Memory M) : Turn M :=
  w.before.foldl (fun t o => o.run t) ⟨env, m, []⟩

def WhileOp.continues (w : WhileOp A M) (env : Env) (m : Memory M) : Bool :=
  decide (w.cond.eval (w.turn env m).env ≠ 0)

/-- A run of the loop, with the memory each then branch started with. -/
inductive WhileOp.Runs (w : WhileOp A M) (env : Env) :
    Memory M → List (Memory M) → Memory M → Prop
  | stop {m : Memory M} : w.continues env m = false →
      WhileOp.Runs w env m (w.turn env m).entries (w.turn env m).memory
  | next {m t : Memory M} {l : List (Memory M)} : w.continues env m = true →
      WhileOp.Runs w env (runOps w.after (env, (w.turn env m).memory)).2 l t →
      WhileOp.Runs w env m ((w.turn env m).entries ++ l) t

end CountedLoops
