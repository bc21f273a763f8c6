/-
# `prune_branches`

An execution part is a list of statements and constructs; the children of an IF construct are
one flat list with `ELSE IF` and `ELSE` statements in it.  The IF constructs are collected
before any of them is changed, and each is then cut where it is, if it is still there; the
one-line IFs follow.

`const_eval_basic_type` is a parameter.
-/
import Mathlib.Data.Fintype.Basic

namespace Branches

/-- What a program is written in. -/
structure Language where
  Action : Type
  Cond : Type
  Kind : Type
  Name : Type
  nameEq : DecidableEq Name

instance (L : Language) : DecidableEq L.Name := L.nameEq

/-- A statement without others in it: `leave` is a `RETURN` or a `STOP`. -/
inductive Act (L : Language) where
  | run (a : L.Action)
  | exit (name : Option L.Name)
  | cycle (name : Option L.Name)
  | leave

/-- The children of an execution part, of an IF construct behind its first statement, or of a part
of another construct.  An IF has an identity. -/
inductive Block (L : Language) where
  | nil
  | act (a : Act L) (rest : Block L)
  | ifStmt (id : ℕ) (cond : L.Cond) (a : Act L) (rest : Block L)
  | ifConstruct (id : ℕ) (name : Option L.Name) (cond : L.Cond) (children rest : Block L)
  | elseIf (cond : L.Cond) (rest : Block L)
  | elseStmt (rest : Block L)
  | construct (kind : L.Kind) (name : Option L.Name) (n : ℕ) (parts : Fin n →
      Block L) (rest : Block L)

variable {L : Language}

namespace Block

/-- One list behind another. -/
def append : Block L → Block L → Block L
  | nil, b => b
  | act a rest, b => act a (rest.append b)
  | ifStmt id cond a rest, b => ifStmt id cond a (rest.append b)
  | ifConstruct id name cond children rest, b => ifConstruct id name cond children (rest.append b)
  | elseIf cond rest, b => elseIf cond (rest.append b)
  | elseStmt rest, b => elseStmt (rest.append b)
  | construct kind name n parts rest, b => construct kind name n parts (rest.append b)

/-- The children up to the first `ELSE IF` or `ELSE`. -/
def firstArm : Block L → Block L
  | nil => nil
  | act a rest => act a rest.firstArm
  | ifStmt id cond a rest => ifStmt id cond a rest.firstArm
  | ifConstruct id name cond children rest => ifConstruct id name cond children rest.firstArm
  | elseIf _ _ => nil
  | elseStmt _ => nil
  | construct kind name n parts rest => construct kind name n parts rest.firstArm

/-- `walk(ast, f03.If_Construct)` -/
def constructIds : Block L → List ℕ
  | nil => []
  | act _ rest => rest.constructIds
  | ifStmt _ _ _ rest => rest.constructIds
  | ifConstruct id _ _ children rest => id :: (children.constructIds ++ rest.constructIds)
  | elseIf _ rest => rest.constructIds
  | elseStmt rest => rest.constructIds
  | construct _ _ n parts rest =>
      (List.finRange n).flatMap (fun j => (parts j).constructIds) ++ rest.constructIds

/-- `walk(ast, f03.If_Stmt)` -/
def stmtIds : Block L → List ℕ
  | nil => []
  | act _ rest => rest.stmtIds
  | ifStmt id _ _ rest => id :: rest.stmtIds
  | ifConstruct _ _ _ children rest => children.stmtIds ++ rest.stmtIds
  | elseIf _ rest => rest.stmtIds
  | elseStmt rest => rest.stmtIds
  | construct _ _ n parts rest =>
      (List.finRange n).flatMap (fun j => (parts j).stmtIds) ++ rest.stmtIds

/-- The children are as the grammar has them: `chain` in an IF construct, where `ELSE IF` may follow
and one `ELSE`, behind which it may not. -/
def Wf : Bool → Block L → Prop
  | _, nil => True
  | chain, act _ rest => rest.Wf chain
  | chain, ifStmt _ _ _ rest => rest.Wf chain
  | chain, ifConstruct _ _ _ children rest => children.Wf true ∧ rest.Wf chain
  | chain, elseIf _ rest => chain = true ∧ rest.Wf true
  | chain, elseStmt rest => chain = true ∧ rest.Wf false
  | chain, construct _ _ _ parts rest => (∀ j, (parts j).Wf false) ∧ rest.Wf chain

end Block

/-! ## One construct -/

/-- What becomes of an IF construct: it stays, with a condition and the children behind it, or
others stand in its place. -/
inductive Resolved (L : Language) where
  | keep (cond : L.Cond) (children : Block L)
  | splice (actions : Block L)

section

variable (fold : L.Cond → Option Bool)

/-- `_prune_branches_in_ifblock` where the condition before these children is false. -/
def resolveFrom : Block L → Resolved L
  | .nil => .splice .nil
  | .act _ rest => resolveFrom rest
  | .ifStmt _ _ _ rest => resolveFrom rest
  | .ifConstruct _ _ _ _ rest => resolveFrom rest
  | .elseIf cond rest =>
    -- the condition becomes that of the construct, which is looked at again
    match fold cond with
    | none => .keep cond rest
    | some true => .splice rest.firstArm
    | some false => resolveFrom rest
  | .elseStmt rest => .splice rest
  | .construct _ _ _ _ rest => resolveFrom rest

/-- `_prune_branches_in_ifblock` -/
def resolve (cond : L.Cond) (children : Block L) : Resolved L :=
  match fold cond with
  | none => .keep cond children
  | some true => .splice children.firstArm
  | some false => resolveFrom fold children

/-- `_prune_branches_in_ifblock` of the construct with an identity, where it is. -/
def pruneConstruct (id : ℕ) : Block L → Block L
  | .nil => .nil
  | .act a rest => .act a (pruneConstruct id rest)
  | .ifStmt i cond a rest => .ifStmt i cond a (pruneConstruct id rest)
  | .ifConstruct i name cond children rest =>
    if i = id then
      match resolve fold cond children with
      | .keep cond' children' => .ifConstruct i name cond' children' (pruneConstruct id rest)
      | .splice actions => actions.append (pruneConstruct id rest)
    else .ifConstruct i name cond (pruneConstruct id children) (pruneConstruct id rest)
  | .elseIf cond rest => .elseIf cond (pruneConstruct id rest)
  | .elseStmt rest => .elseStmt (pruneConstruct id rest)
  | .construct kind name n parts rest =>
    .construct kind name n (fun j => pruneConstruct id (parts j)) (pruneConstruct id rest)

/-- `_prune_branches_in_ifstmt` of the statement with an identity, where it is. -/
def pruneStmt (id : ℕ) : Block L → Block L
  | .nil => .nil
  | .act a rest => .act a (pruneStmt id rest)
  | .ifStmt i cond a rest =>
    if i = id then
      match fold cond with
      | none => .ifStmt i cond a (pruneStmt id rest)
      | some true => .act a (pruneStmt id rest)
      | some false => pruneStmt id rest
    else .ifStmt i cond a (pruneStmt id rest)
  | .ifConstruct i name cond children rest =>
      .ifConstruct i name cond (pruneStmt id children) (pruneStmt id rest)
  | .elseIf cond rest => .elseIf cond (pruneStmt id rest)
  | .elseStmt rest => .elseStmt (pruneStmt id rest)
  | .construct kind name n parts rest =>
      .construct kind name n (fun j => pruneStmt id (parts j)) (pruneStmt id rest)

/-- The loop of `prune_branches` over the constructs. -/
def pruneConstructs (ids : List ℕ) (b : Block L) : Block L :=
  ids.foldl (fun t id => pruneConstruct fold id t) b

/-- The loop of `prune_branches` over the statements. -/
def pruneStmts (ids : List ℕ) (b : Block L) : Block L :=
  ids.foldl (fun t id => pruneStmt fold id t) b

/-- `prune_branches` in one execution part. -/
def pruneBranches (b : Block L) : Block L :=
  let b' := pruneConstructs fold b.constructIds b
  pruneStmts fold b'.stmtIds b'

end

/-! ## Executions -/

/-- How an execution goes on behind a statement; `unfinished` is one that is only looked at so
far. -/
inductive Outcome (L : Language) where
  | normal
  | exit (name : Option L.Name)
  | cycle (name : Option L.Name)
  | leave
  | unfinished

/-- What a statement that is no action does. -/
def Act.outcome : Act L → Option (Outcome L)
  | .run _ => none
  | .exit name => some (.exit name)
  | .cycle name => some (.cycle name)
  | .leave => some .leave

/-- What the parts of a program mean: what an action may do, when a condition holds, and which part
of another construct is run next, until none is. -/
structure World (L : Language) where
  State : Type
  Control : Type
  step : L.Action → State → State → Prop
  holds : L.Cond → State → Bool
  start : L.Kind → State → Control
  next : L.Kind → Control → State → Option (Control × State × ℕ)
  isLoop : L.Kind → Bool

/-- The arm that is run behind a condition that does not hold. -/
def selectFrom (h : L.Cond → Bool) : Block L → Block L
  | .nil => .nil
  | .act _ rest => selectFrom h rest
  | .ifStmt _ _ _ rest => selectFrom h rest
  | .ifConstruct _ _ _ _ rest => selectFrom h rest
  | .elseIf cond rest => if h cond then rest.firstArm else selectFrom h rest
  | .elseStmt rest => rest
  | .construct _ _ _ _ rest => selectFrom h rest

/-- The arm of an IF construct that is run. -/
def selectArm (h : L.Cond → Bool) (cond : L.Cond) (children : Block L) : Block L :=
  if h cond then children.firstArm else selectFrom h children

/-- An `EXIT` of the construct's own name ends it. -/
def catchExit (name : Option L.Name) : Outcome L → Outcome L
  | .exit (some n) => if name = some n then .normal else .exit (some n)
  | o => o

/-- How a construct ends behind one of its parts; `none` if it goes on. -/
def turnOutcome (isLoop : Bool) (name : Option L.Name) : Outcome L → Option (Outcome L)
  | .normal => none
  | .exit none => if isLoop then some .normal else some (.exit none)
  | .exit (some n) => if name = some n then some .normal else some (.exit (some n))
  | .cycle none => if isLoop then none else some (.cycle none)
  | .cycle (some n) => if isLoop ∧ name = some n then none else some (.cycle (some n))
  | .leave => some .leave
  | .unfinished => some .unfinished

/-- The part of a construct with a number. -/
def partAt {n : ℕ} (parts : Fin n → Block L) (j : ℕ) : Block L :=
  if h : j < n then parts ⟨j, h⟩ else .nil

/-- What is executed: statements, or the turns of a construct that are left. -/
inductive Code (W : World L) where
  | block (b : Block L)
  | turns (kind : L.Kind) (name : Option L.Name) (control : W.Control) (n : ℕ) (parts : Fin n →
      Block L)

/-- The executions: the actions that are run in order, the outcome and the state. -/
inductive Exec (W : World L) : Code W → W.State → List L.Action → Outcome L → W.State → Prop where
  | stop (c : Code W) (s : W.State) : Exec W c s [] .unfinished s
  | nil (s : W.State) : Exec W (.block .nil) s [] .normal s
  | run {a : L.Action} {rest : Block L} {s s₁ s₂ : W.State} {tr : List L.Action} {o : Outcome L}
      (hstep : W.step a s s₁) (hrest : Exec W (.block rest) s₁ tr o s₂) :
      Exec W (.block (.act (.run a) rest)) s (a :: tr) o s₂
  | jump {a : Act L} {rest : Block L} {o : Outcome L} (s : W.State) (ho : a.outcome = some o) :
      Exec W (.block (.act a rest)) s [] o s
  | ifTrue {id : ℕ} {cond : L.Cond} {a : Act L} {rest : Block L} {s s' : W.State}
      {tr : List L.Action} {o : Outcome L}
      (hc : W.holds cond s = true) (hact : Exec W (.block (.act a rest)) s tr o s') :
      Exec W (.block (.ifStmt id cond a rest)) s tr o s'
  | ifFalse {id : ℕ} {cond : L.Cond} {a : Act L} {rest : Block L} {s s' : W.State}
      {tr : List L.Action} {o : Outcome L}
      (hc : W.holds cond s = false) (hrest : Exec W (.block rest) s tr o s') :
      Exec W (.block (.ifStmt id cond a rest)) s tr o s'
  | ifNormal {id : ℕ} {name : Option L.Name} {cond : L.Cond} {children rest : Block L}
      {s s₁ s₂ : W.State}
      {tr tr' : List L.Action} {o o' : Outcome L}
      (harm : Exec W (.block (selectArm (W.holds · s) cond children)) s tr o s₁)
        (ho : catchExit name o = .normal)
      (hrest : Exec W (.block rest) s₁ tr' o' s₂) :
      Exec W (.block (.ifConstruct id name cond children rest)) s (tr ++ tr') o' s₂
  | ifOut {id : ℕ} {name : Option L.Name} {cond : L.Cond} {children rest : Block L} {s s₁ : W.State}
      {tr : List L.Action} {o : Outcome L}
      (harm : Exec W (.block (selectArm (W.holds · s) cond children)) s tr o s₁)
        (ho : catchExit name o ≠ .normal) :
      Exec W (.block (.ifConstruct id name cond children rest)) s tr (catchExit name o) s₁
  | constructNormal {kind : L.Kind} {name : Option L.Name} {n : ℕ} {parts : Fin n →
      Block L} {rest : Block L}
      {s s₁ s₂ : W.State} {tr tr' : List L.Action} {o' : Outcome L}
      (hturns : Exec W (.turns kind name (W.start kind s) n parts) s tr .normal s₁)
      (hrest : Exec W (.block rest) s₁ tr' o' s₂) :
      Exec W (.block (.construct kind name n parts rest)) s (tr ++ tr') o' s₂
  | constructOut {kind : L.Kind} {name : Option L.Name} {n : ℕ} {parts : Fin n →
      Block L} {rest : Block L}
      {s s₁ : W.State} {tr : List L.Action} {o : Outcome L}
      (hturns : Exec W (.turns kind name (W.start kind s) n parts) s tr o s₁) (ho : o ≠ .normal) :
      Exec W (.block (.construct kind name n parts rest)) s tr o s₁
  | turnsDone {kind : L.Kind} {name : Option L.Name} {ctl : W.Control} {n : ℕ} {parts : Fin n →
      Block L} {s : W.State}
      (hnext : W.next kind ctl s = none) : Exec W (.turns kind name ctl n parts) s [] .normal s
  | turnsOn {kind : L.Kind} {name : Option L.Name} {ctl ctl' : W.Control} {n j : ℕ} {parts : Fin n →
      Block L}
      {s s₀ s₁ s₂ : W.State} {tr tr' : List L.Action} {o o' : Outcome L}
      (hnext : W.next kind ctl s = some (ctl', s₀, j))
        (hpart : Exec W (.block (partAt parts j)) s₀ tr o s₁)
      (ho : turnOutcome (W.isLoop kind) name o = none)
        (hturns : Exec W (.turns kind name ctl' n parts) s₁ tr' o' s₂) :
      Exec W (.turns kind name ctl n parts) s (tr ++ tr') o' s₂
  | turnsOut {kind : L.Kind} {name : Option L.Name} {ctl ctl' : W.Control} {n j : ℕ}
      {parts : Fin n → Block L}
      {s s₀ s₁ : W.State} {tr : List L.Action} {o o' : Outcome L}
      (hnext : W.next kind ctl s = some (ctl', s₀, j))
        (hpart : Exec W (.block (partAt parts j)) s₀ tr o s₁)
      (ho : turnOutcome (W.isLoop kind) name o = some o') :
      Exec W (.turns kind name ctl n parts) s tr o' s₁

/-! ## What pruning should keep -/

/-- Every `EXIT` of a name stands in a construct of this name. -/
def ExitsInside : List L.Name → Block L → Prop
  | _, .nil => True
  | names, .act a rest => (∀ n, a = .exit (some n) → n ∈ names) ∧ ExitsInside names rest
  | names, .ifStmt _ _ a rest => (∀ n, a = .exit (some n) → n ∈ names) ∧ ExitsInside names rest
  | names, .ifConstruct _ name _ children rest =>
    ExitsInside (name.toList ++ names) children ∧ ExitsInside names rest
  | names, .elseIf _ rest => ExitsInside names rest
  | names, .elseStmt rest => ExitsInside names rest
  | names, .construct _ name _ parts rest =>
    (∀ j, ExitsInside (name.toList ++ names) (parts j)) ∧ ExitsInside names rest

/-- A construct has another name than those around it. -/
def NamesApart : List L.Name → Block L → Prop
  | _, .nil => True
  | names, .act _ rest => NamesApart names rest
  | names, .ifStmt _ _ _ rest => NamesApart names rest
  | names, .ifConstruct _ name _ children rest =>
    (∀ n, name = some n → n ∉ names) ∧ NamesApart (name.toList ++ names) children ∧
      NamesApart names rest
  | names, .elseIf _ rest => NamesApart names rest
  | names, .elseStmt rest => NamesApart names rest
  | names, .construct _ name _ parts rest =>
    (∀ n, name = some n → n ∉ names) ∧ (∀ j, NamesApart (name.toList ++ names) (parts j)) ∧
      NamesApart names rest

/-- An execution part as it is parsed: every IF construct is an object of its own. -/
structure ExecutionPart (L : Language) where
  block : Block L
  wf : block.Wf false
  constructIds_nodup : block.constructIds.Nodup
  exitsInside : ExitsInside [] block
  namesApart : NamesApart [] block

/-- No first condition of an IF folds. -/
def NoneFolds (fold : L.Cond → Option Bool) : Block L → Prop
  | .nil => True
  | .act _ rest => NoneFolds fold rest
  | .ifStmt _ cond _ rest => fold cond = none ∧ NoneFolds fold rest
  | .ifConstruct _ _ cond children rest => fold cond = none ∧ NoneFolds fold children ∧
      NoneFolds fold rest
  | .elseIf _ rest => NoneFolds fold rest
  | .elseStmt rest => NoneFolds fold rest
  | .construct _ _ _ parts rest => (∀ j, NoneFolds fold (parts j)) ∧ NoneFolds fold rest

/-- Folded conditions have the folded value. -/
def FoldSound (fold : L.Cond → Option Bool) (W : World L) : Prop :=
  ∀ cond v, fold cond = some v → ∀ s, W.holds cond s = v

/-- The executions are the same. -/
def SameRuns (fold : L.Cond → Option Bool) (b b' : Block L) : Prop :=
  ∀ W : World L, FoldSound fold W → ∀ s tr o s', Exec W (.block b) s tr o s' ↔
    Exec W (.block b') s tr o s'

/-- The pruned part is still a program, executes the same, and no leading condition of it folds. -/
structure KeepsMeaning (fold : L.Cond → Option Bool) (p : ExecutionPart L) : Prop where
  exitsInside : ExitsInside [] (pruneBranches fold p.block)
  sameRuns : SameRuns fold p.block (pruneBranches fold p.block)
  noneFolds : NoneFolds fold (pruneBranches fold p.block)

/-! ## Exits without their construct -/

/-- An `EXIT` of the name is kept in the children, outside of a construct of this name. -/
inductive KeptExit (fold : L.Cond → Option Bool) (n : L.Name) : Block L → Prop where
  | act (rest : Block L) : KeptExit fold n (.act (.exit (some n)) rest)
  | ifStmt {cond : L.Cond} (id : ℕ) (rest : Block L) (hc : fold cond ≠ some false) :
      KeptExit fold n (.ifStmt id cond (.exit (some n)) rest)
  | keep {id : ℕ} {name : Option L.Name} {cond cond' : L.Cond} {children children' : Block L}
      (rest : Block L)
      (hname : name ≠ some n) (hr : resolve fold cond children = .keep cond' children')
      (h : KeptExit fold n children') : KeptExit fold n (.ifConstruct id name cond children rest)
  | splice {id : ℕ} {name : Option L.Name} {cond : L.Cond} {children actions : Block L}
      (rest : Block L)
      (hr : resolve fold cond children = .splice actions) (h : KeptExit fold n actions) :
      KeptExit fold n (.ifConstruct id name cond children rest)
  | part {kind : L.Kind} {name : Option L.Name} {m : ℕ} {parts : Fin m →
      Block L} (rest : Block L) (j : Fin m)
      (hname : name ≠ some n) (h : KeptExit fold n (parts j)) : KeptExit fold n
        (.construct kind name m parts rest)
  | afterAct {rest : Block L} (a : Act L) (h : KeptExit fold n rest) : KeptExit fold n (.act a rest)
  | afterIfStmt {rest : Block L} (id : ℕ) (cond : L.Cond) (a : Act L) (h : KeptExit fold n rest) :
      KeptExit fold n (.ifStmt id cond a rest)
  | afterIf {rest : Block L} (id : ℕ) (name : Option L.Name) (cond : L.Cond) (children : Block L)
      (h : KeptExit fold n rest) : KeptExit fold n (.ifConstruct id name cond children rest)
  | afterElseIf {rest : Block L} (cond : L.Cond) (h : KeptExit fold n rest) : KeptExit fold n
      (.elseIf cond rest)
  | afterElse {rest : Block L} (h : KeptExit fold n rest) : KeptExit fold n (.elseStmt rest)
  | afterConstruct {rest : Block L} (kind : L.Kind) (name : Option L.Name) (m : ℕ) (parts : Fin m →
      Block L)
      (h : KeptExit fold n rest) : KeptExit fold n (.construct kind name m parts rest)

/-- An IF construct that is taken away, in code that is kept, has an `EXIT` of its name in the arm
that is kept. -/
inductive Orphaned (fold : L.Cond → Option Bool) : Block L → Prop where
  | here {id : ℕ} {n : L.Name} {cond : L.Cond} {children actions : Block L} (rest : Block L)
      (hr : resolve fold cond children = .splice actions) (h : KeptExit fold n actions) :
      Orphaned fold (.ifConstruct id (some n) cond children rest)
  | keep {id : ℕ} {name : Option L.Name} {cond cond' : L.Cond} {children children' : Block L}
      (rest : Block L)
      (hr : resolve fold cond children = .keep cond' children') (h : Orphaned fold children') :
      Orphaned fold (.ifConstruct id name cond children rest)
  | splice {id : ℕ} {name : Option L.Name} {cond : L.Cond} {children actions : Block L}
      (rest : Block L)
      (hr : resolve fold cond children = .splice actions) (h : Orphaned fold actions) :
      Orphaned fold (.ifConstruct id name cond children rest)
  | part {kind : L.Kind} {name : Option L.Name} {m : ℕ} {parts : Fin m →
      Block L} (rest : Block L) (j : Fin m)
      (h : Orphaned fold (parts j)) : Orphaned fold (.construct kind name m parts rest)
  | afterAct {rest : Block L} (a : Act L) (h : Orphaned fold rest) : Orphaned fold (.act a rest)
  | afterIfStmt {rest : Block L} (id : ℕ) (cond : L.Cond) (a : Act L) (h : Orphaned fold rest) :
      Orphaned fold (.ifStmt id cond a rest)
  | afterIf {rest : Block L} (id : ℕ) (name : Option L.Name) (cond : L.Cond) (children : Block L)
      (h : Orphaned fold rest) : Orphaned fold (.ifConstruct id name cond children rest)
  | afterElseIf {rest : Block L} (cond : L.Cond) (h : Orphaned fold rest) : Orphaned fold
      (.elseIf cond rest)
  | afterElse {rest : Block L} (h : Orphaned fold rest) : Orphaned fold (.elseStmt rest)
  | afterConstruct {rest : Block L} (kind : L.Kind) (name : Option L.Name) (m : ℕ) (parts : Fin m →
      Block L)
      (h : Orphaned fold rest) : Orphaned fold (.construct kind name m parts rest)

-- the equations of the walk, made once for the proofs over them
attribute [local simp] pruneConstruct pruneStmt resolveFrom resolve Block.constructIds

end Branches
