/-
# Chains of ELSE IF and the regions they become

`emit_cond` flattens a chain of nested `conditional` nodes into one block: every
condition of the chain is prepared first (used as it stands, staged into a fresh symbol
in front of the block, or taken from the cache of the region), then the bodies are
emitted, each into a region of its own.
-/
import DaceFortran.Builder.ArraySubscripts

namespace Conditionals

open Subscripts

/-! ## Nodes -/

/-- An access of a node. -/
structure Access where
  arrayName : Text
  indexExprs : List Text
  isRead : Bool
  deriving DecidableEq

/-- The condition of a node, as rewritten to descriptor subscripts, and its accesses. -/
structure Cond where
  text : Text
  accesses : List Access

/-- `str(arg).split("[", 1)[0].strip()` -/
def argumentName (arg : Text) : Text := strip (arg.takeWhile fun c => decide (c ≠ '['))

/-- The names a node other than a conditional or a loop is counted to store into. -/
def storedNames (target : Option Text) (accesses : List Access) (callArgs : List Text) :
    List Text :=
  target.toList ++ (accesses.filter fun a => !a.isRead).map Access.arrayName ++
    callArgs.map argumentName

/-- How a statement is left. -/
inductive Outcome
  | next
  | exit
  | cycle
  | returned
  deriving DecidableEq

/-- A statement that is no conditional and no loop.  It may change more than its node names
as stored, as a store through a view does. -/
structure Action (V : Type) where
  target : Option Text
  accesses : List Access
  callArgs : List Text
  effect : (Text → V) → Text → V
  jump : Outcome

/-- The nodes of a routine. -/
inductive Stmt (V : Type) where
  | act (a : Action V)
  | cond (c : Cond) (body orElse : List (Stmt V))
  | loop (iter : Text) (values : (Text → V) → List V) (body : List (Stmt V))

/-! ## Names of a condition -/

/-- The maximal runs of word characters, behind the run that is open. -/
def wordsFrom : Text → Text → List Text
  | open_, [] => [open_]
  | open_, c :: cs =>
      if isWord c then wordsFrom (open_ ++ [c]) cs else open_ :: wordsFrom [] cs

/-- `re.findall(r"\b([A-Za-z_]\w*)\b", text)` -/
def identifiers (t : Text) : List Text := (wordsFrom [] t).filter fun w => w.head?.any isStart

/-- The literals `buildBoolExpr` emits. -/
def literals : List Text :=
  [['T', 'r', 'u', 'e'], ['F', 'a', 'l', 's', 'e'], ['t', 'r', 'u', 'e'],
    ['f', 'a', 'l', 's', 'e'], ['a', 'n', 'd'], ['o', 'r'], ['n', 'o', 't']]

/-- The data a condition names. -/
def condNames (t : Text) : List Text := (identifiers t).filter fun x => !literals.contains x

/-- What the builder knows of a routine. -/
structure Builder where
  isArray : Text → Bool
  isScalar : Text → Bool
  writeSet : List Text

/-- `_is_trivial_bound` -/
def isTrivialBound (b : Builder) (expr : Text) : Bool :=
  let s := strip expr
  let digits := s.dropWhile fun c => decide (c = '-' ∨ c = '+')
  s.isEmpty || (!digits.isEmpty && digits.all Char.isDigit) ||
    (s.all isWord && !s.head?.any Char.isDigit && !b.isArray s)

/-- The condition reads arrays, each occurrence with its access, and is computed by a
tasklet. -/
def isLifted (b : Builder) (c : Cond) : Bool :=
  let reads := (c.accesses.eraseDups.filter fun a => a.isRead && b.isArray a.arrayName).map
    Access.arrayName
  let occurrences := (identifiers c.text).filter b.isArray
  !reads.isEmpty && (occurrences ++ reads).all fun x => occurrences.count x == reads.count x

/-- `cond_reuse_key` -/
def condReuseKey (b : Builder) (text : Text) : Option Text :=
  let names := condNames text
  if names.isEmpty then none
  else if names.any fun x => b.writeSet.contains x || !(b.isScalar x || b.isArray x) then none
  else some text

mutual
/-- `routine_write_set`, of one node. -/
def writeSetOf {V : Type} : Stmt V → List Text
  | .act a => storedNames a.target a.accesses a.callArgs
  | .cond c body orElse =>
      storedNames none c.accesses [] ++ (routineWriteSet body ++ routineWriteSet orElse)
  | .loop iter _ body => iter :: routineWriteSet body

/-- `routine_write_set` -/
def routineWriteSet {V : Type} : List (Stmt V) → List Text
  | [] => []
  | s :: ss => writeSetOf s ++ routineWriteSet ss
end

/-! ## Regions -/

/-- A prepared condition: its text itself, a symbol staged in front of the block, or a
symbol staged before. -/
structure Guard where
  text : Text
  symbol : Option ℕ
  staged : Bool

/-- What a region is made of; a chain is the states that stage its conditions and the
`ConditionalBlock` behind them. -/
inductive Elem (V : Type) where
  | act (a : Action V)
  | chain (guards : List Guard) (bodies : List (List (Elem V))) (orElse : List (Elem V))
  | loop (iter : Text) (values : (Text → V) → List V) (body : List (Elem V))

/-- `Ctx.cond_cache` -/
abbrev CondCache := List (Text × ℕ)

/-- `_prepare_cond_expr`, with the counter of `builder.nid`. -/
def prepareCondExpr (b : Builder) (cache : CondCache) (nid : ℕ) (c : Cond) :
    Guard × CondCache × ℕ :=
  if isTrivialBound b c.text then (⟨c.text, none, false⟩, cache, nid)
  else if isLifted b c then (⟨c.text, some nid, true⟩, cache, nid + 1)
  else
    match condReuseKey b c.text with
    | none => (⟨c.text, some nid, true⟩, cache, nid + 1)
    | some key =>
        match cache.lookup key with
        | some sym => (⟨c.text, some sym, false⟩, cache, nid)
        | none => (⟨c.text, some nid, true⟩, (key, nid) :: cache, nid + 1)

/-- The conditions of a chain, one after the other. -/
def prepareAll (b : Builder) : List Cond → CondCache → ℕ → List Guard × CondCache × ℕ
  | [], cache, nid => ([], cache, nid)
  | c :: cs, cache, nid =>
      let g := prepareCondExpr b cache nid c
      let gs := prepareAll b cs g.2.1 g.2.2
      (g.1 :: gs.1, gs.2)

/-- The conditions flattened behind the first: those of else bodies that are one
`conditional`. -/
def chainConds {V : Type} : List (Stmt V) → List Cond
  | [.cond c _ orElse] => c :: chainConds orElse
  | _ => []

mutual
/-- One node into its region. -/
def emit {V : Type} (b : Builder) : Stmt V → CondCache → ℕ → Elem V × CondCache × ℕ
  | .act a, cache, nid => (.act a, cache, nid)
  | .cond c body orElse, cache, nid =>
      let gs := prepareAll b (c :: chainConds orElse) cache nid
      let r := emitNodes b body [] (gs.2.2 + 1)
      let rs := emitElse b orElse r.2
      (.chain gs.1 (r.1 :: rs.1) rs.2.1, gs.2.1, rs.2.2)
  | .loop iter values body, cache, nid =>
      let r := emitNodes b body [] nid
      (.loop iter values r.1, cache, r.2)

/-- `emit_nodes` -/
def emitNodes {V : Type} (b : Builder) : List (Stmt V) → CondCache → ℕ → List (Elem V) × ℕ
  | [], _, nid => ([], nid)
  | s :: ss, cache, nid =>
      let e := emit b s cache nid
      let es := emitNodes b ss e.2.1 e.2.2
      (e.1 :: es.1, es.2)

/-- The bodies flattened behind the first, and the else body. -/
def emitElse {V : Type} (b : Builder) :
    List (Stmt V) → ℕ → List (List (Elem V)) × List (Elem V) × ℕ
  | [], nid => ([], [], nid)
  | [.cond _ body orElse], nid =>
      let r := emitNodes b body [] nid
      let rs := emitElse b orElse r.2
      (r.1 :: rs.1, rs.2)
  | s :: ss, nid =>
      let e := emit b s [] nid
      let es := emitNodes b ss e.2.1 e.2.2
      ([], e.1 :: es.1, es.2)
end

end Conditionals

/-
# Runs of a nest and of its regions

What the Fortran nest does and what the emitted regions do, statement by statement: a
chain stages its conditions, then runs the first body whose guard holds.  Two properties
go along a run of the regions (every guard has the value of its condition, no condition
is staged behind one that holds), and one along a run of the nest: no condition behind
the first that holds is one that has to be staged.
-/

namespace Conditionals

open Subscripts

variable {V : Type}

/-- What conditions mean: their value depends on the data they name. -/
structure Meaning (V : Type) where
  holds : Text → (Text → V) → Bool
  names : ∀ t σ τ, (∀ x ∈ condNames t, σ x = τ x) → holds t σ = holds t τ

/-! ## Control -/

/-- One after the other, unless the first leaves. -/
def andThen {α : Type} (r : α × Outcome) (k : α → α × Outcome) : α × Outcome :=
  match r.2 with
  | .next => k r.1
  | _ => r

/-- A loop over the values. -/
def iterate {α : Type} (step : V → α → α × Outcome) : List V → α → α × Outcome
  | [], a => (a, .next)
  | v :: vs, a =>
      match (step v a).2 with
      | .exit => ((step v a).1, .next)
      | .returned => ((step v a).1, .returned)
      | _ => iterate step vs (step v a).1

/-- A property of every iteration that is made. -/
def alongIterate {α : Type} (prop : V → α → Prop) (step : V → α → α × Outcome) :
    List V → α → Prop
  | [], _ => True
  | v :: vs, a =>
      prop v a ∧
        ((step v a).2 = .next ∨ (step v a).2 = .cycle → alongIterate prop step vs (step v a).1)

/-! ## The nest -/

/-- The data and the statements executed so far. -/
structure Mem (V : Type) where
  store : Text → V
  trace : List (Action V)

def Mem.after (m : Mem V) (a : Action V) : Mem V := ⟨a.effect m.store, m.trace ++ [a]⟩

def Mem.set (m : Mem V) (x : Text) (v : V) : Mem V :=
  ⟨Function.update m.store x v, m.trace⟩

mutual
def exec (M : Meaning V) : Stmt V → Mem V → Mem V × Outcome
  | .act a, m => (m.after a, a.jump)
  | .cond c body orElse, m =>
      if M.holds c.text m.store then execAll M body m else execAll M orElse m
  | .loop iter values body, m =>
      iterate (fun v n => execAll M body (n.set iter v)) (values m.store) m

def execAll (M : Meaning V) : List (Stmt V) → Mem V → Mem V × Outcome
  | [], m => (m, .next)
  | s :: ss, m => andThen (exec M s m) (execAll M ss)
end

/-! ## The regions -/

/-- The data, and the values of the condition symbols. -/
structure State (V : Type) where
  mem : Mem V
  syms : ℕ → Bool

def State.set (st : State V) (x : Text) (v : V) : State V := { st with mem := st.mem.set x v }

/-- The state that stages a condition. -/
def State.stage (M : Meaning V) (st : State V) (g : Guard) : State V :=
  match g.symbol, g.staged with
  | some sym, true =>
      { st with syms := Function.update st.syms sym (M.holds g.text st.mem.store) }
  | _, _ => st

def State.stageAll (M : Meaning V) (st : State V) (guards : List Guard) : State V :=
  guards.foldl (State.stage M) st

/-- The value of a branch condition of a block. -/
def State.value (M : Meaning V) (st : State V) (g : Guard) : Bool :=
  match g.symbol with
  | none => M.holds g.text st.mem.store
  | some sym => st.syms sym

mutual
def run (M : Meaning V) : Elem V → State V → State V × Outcome
  | .act a, st => ({ st with mem := st.mem.after a }, a.jump)
  | .chain guards bodies orElse, st =>
      let st' := st.stageAll M guards
      runFirst M bodies (guards.map (st'.value M)) (runAll M orElse st') st'
  | .loop iter values body, st =>
      iterate (fun v st => runAll M body (st.set iter v)) (values st.mem.store) st

def runAll (M : Meaning V) : List (Elem V) → State V → State V × Outcome
  | [], st => (st, .next)
  | e :: es, st => andThen (run M e st) (runAll M es)

/-- The first body whose guard holds, or the else body. -/
def runFirst (M : Meaning V) :
    List (List (Elem V)) → List Bool → State V × Outcome → State V → State V × Outcome
  | r :: rs, v :: vs, other, st => if v then runAll M r st else runFirst M rs vs other st
  | _, _, other, _ => other
end

/-! ## Properties along a run of the regions -/

section Along

variable (M : Meaning V) (q : List Guard → State V → Prop)

mutual
/-- The property of the guards and the state in front of every chain that is met. -/
def Along : Elem V → State V → Prop
  | .act _, _ => True
  | .chain guards bodies orElse, st =>
      q guards st ∧
        AlongFirst bodies (guards.map ((st.stageAll M guards).value M))
          (AlongAll orElse (st.stageAll M guards)) (st.stageAll M guards)
  | .loop iter values body, st =>
      alongIterate (fun v st => AlongAll body (st.set iter v))
        (fun v st => runAll M body (st.set iter v)) (values st.mem.store) st

def AlongAll : List (Elem V) → State V → Prop
  | [], _ => True
  | e :: es, st => Along e st ∧ ((run M e st).2 = .next → AlongAll es (run M e st).1)

def AlongFirst : List (List (Elem V)) → List Bool → Prop → State V → Prop
  | r :: rs, v :: vs, other, st => if v then AlongAll r st else AlongFirst rs vs other st
  | _, _, other, _ => other
end

end Along

/-- Every guard of the chain has the value its condition would have there, a symbol of
the cache, too. -/
def GuardsRight (M : Meaning V) (guards : List Guard) (st : State V) : Prop :=
  ∀ g ∈ guards, (st.stageAll M guards).value M g = M.holds g.text st.mem.store

/-- A condition is staged only where all conditions in front of it are false. -/
def StagesLazily (M : Meaning V) (guards : List Guard) (st : State V) : Prop :=
  guards.Pairwise fun g h => h.staged = true → M.holds g.text st.mem.store = false

/-! ## The conditions that have to be staged -/

/-- The condition is neither a bare name or literal nor one whose symbol is at hand. -/
def isStaged (b : Builder) (keys : List Text) (c : Cond) : Bool :=
  !isTrivialBound b c.text &&
    (isLifted b c || match condReuseKey b c.text with
      | none => true
      | some key => !keys.contains key)

/-- The conditions whose symbols are at hand behind it. -/
def keysAfter (b : Builder) (keys : List Text) (c : Cond) : List Text :=
  if isTrivialBound b c.text || isLifted b c then keys
  else
    match condReuseKey b c.text with
    | none => keys
    | some key => if keys.contains key then keys else key :: keys

def keysBehind (b : Builder) (keys : List Text) (cs : List Cond) : List Text :=
  cs.foldl (keysAfter b) keys

/-- The conditions of a chain, and whether each has to be staged. -/
def plan (b : Builder) : List Text → List Cond → List (Text × Bool)
  | _, [] => []
  | keys, c :: cs => (c.text, isStaged b keys c) :: plan b (keysAfter b keys c) cs

/-- No condition behind the first that holds has to be staged. -/
def ChainGuarded (b : Builder) (M : Meaning V) (keys : List Text) (cs : List Cond)
    (σ : Text → V) : Prop :=
  (plan b keys cs).Pairwise fun g h => h.2 = true → M.holds g.1 σ = false

/-- The keys at hand behind a node of the region. -/
def keysOf (b : Builder) (keys : List Text) : Stmt V → List Text
  | .cond c _ orElse => keysBehind b keys (c :: chainConds orElse)
  | _ => keys

mutual
/-- Every chain that the nest meets is guarded. -/
def Guarded (b : Builder) (M : Meaning V) : Stmt V → List Text → Mem V → Prop
  | .act _, _, _ => True
  | .cond c body orElse, keys, m =>
      ChainGuarded b M keys (c :: chainConds orElse) m.store ∧
        if M.holds c.text m.store then GuardedAll b M body [] m else GuardedElse b M orElse m
  | .loop iter values body, _, m =>
      alongIterate (fun v n => GuardedAll b M body [] (n.set iter v))
        (fun v n => execAll M body (n.set iter v)) (values m.store) m

def GuardedAll (b : Builder) (M : Meaning V) : List (Stmt V) → List Text → Mem V → Prop
  | [], _, _ => True
  | s :: ss, keys, m =>
      Guarded b M s keys m ∧
        ((exec M s m).2 = .next → GuardedAll b M ss (keysOf b keys s) (exec M s m).1)

/-- The else body of a chain, a flattened condition being part of the chain. -/
def GuardedElse (b : Builder) (M : Meaning V) : List (Stmt V) → Mem V → Prop
  | [], _ => True
  | [.cond c body orElse], m =>
      if M.holds c.text m.store then GuardedAll b M body [] m else GuardedElse b M orElse m
  | s :: ss, m =>
      Guarded b M s [] m ∧
        ((exec M s m).2 = .next → GuardedAll b M ss (keysOf b [] s) (exec M s m).1)
end

/-! ## Stores that the write set does not count -/

mutual
/-- The conditions of a node. -/
def condsOf {V : Type} : Stmt V → List Cond
  | .act _ => []
  | .cond c body orElse => c :: (condsOfAll body ++ condsOfAll orElse)
  | .loop _ _ body => condsOfAll body

def condsOfAll {V : Type} : List (Stmt V) → List Cond
  | [] => []
  | s :: ss => condsOf s ++ condsOfAll ss
end

/-- A name of a condition, of those in `conds`, whose symbol may be reused. -/
def Watched (b : Builder) (conds : List Cond) (x : Text) : Prop :=
  ∃ c ∈ conds, condReuseKey b c.text = some c.text ∧ x ∈ condNames c.text

mutual
/-- No statement that the nest executes changes a watched name. -/
def Counted (b : Builder) (M : Meaning V) (conds : List Cond) : Stmt V → Mem V → Prop
  | .act a, m => ∀ x, Watched b conds x → a.effect m.store x = m.store x
  | .cond c body orElse, m =>
      if M.holds c.text m.store then CountedAll b M conds body m
      else CountedAll b M conds orElse m
  | .loop iter values body, m =>
      alongIterate (fun v n => CountedAll b M conds body (n.set iter v))
        (fun v n => execAll M body (n.set iter v)) (values m.store) m

def CountedAll (b : Builder) (M : Meaning V) (conds : List Cond) : List (Stmt V) → Mem V → Prop
  | [], _ => True
  | s :: ss, m =>
      Counted b M conds s m ∧
        ((exec M s m).2 = .next → CountedAll b M conds ss (exec M s m).1)
end

/-! ## What is claimed -/

/-- The builder of a routine. -/
def builderOf (isArray isScalar : Text → Bool) (nodes : List (Stmt V)) : Builder :=
  ⟨isArray, isScalar, routineWriteSet nodes⟩

/-- The emitted regions execute the statements of the nest, every condition symbol has
the value of its condition where it is used, and conditions are staged only where all in
front of them are false. -/
def PreservesControl (isArray isScalar : Text → Bool) (M : Meaning V) (nodes : List (Stmt V))
    (st : State V) : Prop :=
  let region := (emitNodes (builderOf isArray isScalar nodes) nodes [] 0).1
  (runAll M region st).1.mem = (execAll M nodes st.mem).1 ∧
    (runAll M region st).2 = (execAll M nodes st.mem).2 ∧
    AlongAll M (GuardsRight M) region st ∧ AlongAll M (StagesLazily M) region st

end Conditionals
