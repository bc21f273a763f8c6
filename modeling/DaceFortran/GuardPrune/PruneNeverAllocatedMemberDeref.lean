/-
# Code with guarded dereferences

Structured code over records whose allocatable and pointer members are slots: designates of
members with the uses of their descriptor, dereferences of slots, any other operation by its
effect, `fir.if`, loops and calls.  A dereference of a slot that is not allocated leaves the
execution undefined.
-/
import Mathlib.Data.List.Basic

namespace GuardPrune

/-! ## Code -/

/-- A slot type: the name of the parent record and the member. -/
structure SlotKey where
  record : String
  member : String
  deriving DecidableEq

/-- A use of the address of a descriptor; a convert or a declare forwards it to further uses. -/
inductive Use where
  | load
  | store
  | call
  | forward (uses : List Use)
  | other

/-- A designate of a component: its slot, whether it is an allocatable or pointer member of record
type, its uses. -/
structure Designate where
  key : SlotKey
  candidate : Bool
  uses : List Use

/-- Which slot of which record object is allocated, and everything else. -/
structure State (R : Type) where
  allocated : ℕ → SlotKey → Bool
  rest : R

variable {R : Type}

/-- An operation by its effect; `through` is the slot whose address it uses to write or hands to a
callee. -/
structure Op (R : Type) where
  through : Option SlotKey
  effect : State R → State R

inductive Stmt (R : Type) where
  | designate (d : Designate)
  | deref (k : SlotKey) (object : State R → ℕ)
  | op (o : Op R)
  | ifOp (results : ℕ) (cond : State R → Bool) (thenBlock : List (Stmt R)) (hasElse : Bool)
      (elseBlock : List (Stmt R))
  | loop (cond : State R → Bool) (body : List (Stmt R))
  | call (f : ℕ)

mutual
/-- The statement and all statements in it. -/
def Stmt.within : Stmt R → List (Stmt R)
  | .ifOp n c t h e => .ifOp n c t h e :: (allWithin t ++ allWithin e)
  | .loop c b => .loop c b :: allWithin b
  | .designate d => [.designate d]
  | .deref k x => [.deref k x]
  | .op o => [.op o]
  | .call f => [.call f]

def allWithin : List (Stmt R) → List (Stmt R)
  | [] => []
  | s :: ss => s.within ++ allWithin ss
end

theorem allWithin_append (ss ss' : List (Stmt R)) :
    allWithin (ss ++ ss') = allWithin ss ++ allWithin ss' := by
  induction ss with
  | nil => rfl
  | cons s ss ih =>
    show s.within ++ allWithin (ss ++ ss') = s.within ++ allWithin ss ++ allWithin ss'
    rw [ih, List.append_assoc]

/-! ## Executions -/

/-- What an execution logs: an operation with the state it starts in, and the entry block of a
marked `fir.if` when it is entered. -/
inductive Event (R : Type) where
  | did (o : Op R) (s : State R)
  | entered (block : List (Stmt R))

/-- A complete execution of statements: its log, and its final state unless it became undefined. -/
inductive Exec (body : ℕ → List (Stmt R)) (marked : Stmt R → Bool) :
    List (Stmt R) → State R → List (Event R) → Option (State R) → Prop
  | done (s : State R) : Exec body marked [] s [] (some s)
  | designate {d : Designate} {ss : List (Stmt R)} {s : State R} {l : List (Event R)}
      {out : Option (State R)} : Exec body marked ss s l out →
      Exec body marked (.designate d :: ss) s l out
  | deref {k : SlotKey} {x : State R → ℕ} {ss : List (Stmt R)} {s : State R} {l : List (Event R)}
      {out : Option (State R)} : s.allocated (x s) k = true → Exec body marked ss s l out →
      Exec body marked (.deref k x :: ss) s l out
  | undefined {k : SlotKey} {x : State R → ℕ} {ss : List (Stmt R)} {s : State R} :
      s.allocated (x s) k = false → Exec body marked (.deref k x :: ss) s [] none
  | op {o : Op R} {ss : List (Stmt R)} {s : State R} {l : List (Event R)} {out : Option (State R)} :
      Exec body marked ss (o.effect s) l out → Exec body marked (.op o :: ss) s (.did o s :: l) out
  | taken {n : ℕ} {c : State R → Bool} {t e : List (Stmt R)} {h : Bool} {ss : List (Stmt R)}
      {s : State R} {l : List (Event R)} {out : Option (State R)} : c s = true →
      Exec body marked (t ++ ss) s l out →
      Exec body marked (.ifOp n c t h e :: ss) s
        ((if marked (.ifOp n c t h e) then [.entered t] else []) ++ l) out
  | skipped {n : ℕ} {c : State R → Bool} {t e : List (Stmt R)} {h : Bool} {ss : List (Stmt R)}
      {s : State R} {l : List (Event R)} {out : Option (State R)} : c s = false →
      Exec body marked ((if h then e else []) ++ ss) s l out →
      Exec body marked (.ifOp n c t h e :: ss) s l out
  | again {c : State R → Bool} {b ss : List (Stmt R)} {s : State R} {l : List (Event R)}
      {out : Option (State R)} : c s = true → Exec body marked (b ++ .loop c b :: ss) s l out →
      Exec body marked (.loop c b :: ss) s l out
  | left {c : State R → Bool} {b ss : List (Stmt R)} {s : State R} {l : List (Event R)}
      {out : Option (State R)} : c s = false → Exec body marked ss s l out →
      Exec body marked (.loop c b :: ss) s l out
  | call {f : ℕ} {ss : List (Stmt R)} {s : State R} {l : List (Event R)} {out : Option (State R)} :
      Exec body marked (body f ++ ss) s l out → Exec body marked (.call f :: ss) s l out

end GuardPrune

/-
# `PruneNeverAllocatedMemberDeref`

The pass that erases a `fir.if` whose entry block designates an allocatable or pointer record
member that no designate of the module is seen to allocate or to let escape.
-/

namespace GuardPrune

variable {R : Type}

/-! ## Slots -/

mutual
/-- `slotWrittenOrEscaped` of one use: a load is a read, a forward counts by its uses, anything else
is a write or an escape. -/
def Use.writesOrEscapes : Use → Bool
  | .load => false
  | .store | .call | .other => true
  | .forward uses => anyWritesOrEscapes uses

def anyWritesOrEscapes : List Use → Bool
  | [] => false
  | u :: us => u.writesOrEscapes || anyWritesOrEscapes us
end

/-- `slotWrittenOrEscaped` -/
def slotWrittenOrEscaped (d : Designate) : Bool := anyWritesOrEscapes d.uses

/-- The functions of a module, called by number.  An operation that uses the address of a slot is a
use of a designate of the slot. -/
structure Module (R : Type) where
  functions : List (List (Stmt R))
  linked : ∀ o k, Stmt.op o ∈ allWithin functions.flatten → o.through = some k →
    ∃ d, Stmt.designate d ∈ allWithin functions.flatten ∧ d.key = k ∧ slotWrittenOrEscaped d = true

def Module.body (M : Module R) (f : ℕ) : List (Stmt R) := M.functions.getD f []

def Stmt.asDesignate : Stmt R → Option Designate
  | .designate d => some d
  | _ => none

/-- `designatesBySlot` -/
def Module.designatesOf (M : Module R) (k : SlotKey) : List Designate :=
  ((allWithin M.functions.flatten).filterMap Stmt.asDesignate).filter fun d => decide (d.key = k)

/-- The slot is one of the pass's candidates and no designate of it is written or escapes. -/
def Module.prunable (M : Module R) (k : SlotKey) : Bool :=
  (M.designatesOf k).any Designate.candidate && !(M.designatesOf k).any slotWrittenOrEscaped

/-! ## Guards -/

/-- `enclosingUnconditionalGuard` of some designate of a prunable slot. -/
def Module.isGuard (M : Module R) : Stmt R → Bool
  | .ifOp results _ thenBlock hasElse _ =>
    decide (results = 0) && !hasElse &&
      (thenBlock.filterMap Stmt.asDesignate).any fun d => M.prunable d.key
  | _ => false

mutual
/-- The statement with the guards in it erased. -/
def Module.pruneStmt (M : Module R) : Stmt R → List (Stmt R)
  | .ifOp n c t h e => if M.isGuard (.ifOp n c t h e) then
    [] else [.ifOp n c (M.prune t) h (M.prune e)]
  | .loop c b => [.loop c (M.prune b)]
  | .designate d => [.designate d]
  | .deref k x => [.deref k x]
  | .op o => [.op o]
  | .call f => [.call f]

def Module.prune (M : Module R) : List (Stmt R) → List (Stmt R)
  | [] => []
  | s :: ss => M.pruneStmt s ++ M.prune ss
end

/-- The pruned functions. -/
def Module.prunedBody (M : Module R) (f : ℕ) : List (Stmt R) := M.prune (M.body f)

end GuardPrune
