/-
# Code over module variables

Structured procedures that load and store through chains of declares, converts and
designates: the locations an address names in a frame, executions with the writes
they log, and where an address strays from the chain that leads to it from a variable.
-/
import DaceFortran.GlobalReads.RecordCode
import Mathlib.Algebra.GroupWithZero.Nat

namespace SpecializeGlobals

open GlobalReads (Location Root Memory Step)

abbrev Name := GlobalReads.Name

/-! ## Addresses -/

/-- An integer operand: a literal or a value. -/
inductive Index where
  | lit (k : ℤ)
  | val (v : ℕ)
  deriving DecidableEq

abbrev Env := ℕ → ℤ

def Index.eval (env : Env) : Index → ℤ
  | .lit k => k
  | .val v => env v

/-- A subscript: one index, or a section by the indices it picks. -/
inductive Subscript where
  | scalar (i : Index)
  | triplet (picks : Env → ℤ → Prop)

/-- The lower bound and the extent of each dimension. -/
abbrev Shape := List (Index × Index)

/-- What defines an address.  A declare may give the shape of an array; `extra` says that a
designate has a substring or a complex part, `shaped` that it has a shape or type parameters;
`derived` is any other operation on an address, `arg` an argument and `pointer` a loaded pointer. -/
inductive Address where
  | addrOf (sym : Name)
  | declare (memref : Address) (shape : Option Shape)
  | convert (value : Address)
  | designate (memref : Address) (component : Option Name) (subscripts : List Subscript)
      (extra shaped : Bool)
  | derived (value : Address)
  | arg (n : ℕ)
  | pointer (n : ℕ)

/-! ## Locations -/

/-- The lower bounds and extents of the array at an address, where they are declared. -/
def shapeOf (env : Env) : Address → Option (List (ℤ × ℤ))
  | .declare _ shape => shape.map (List.map fun d => (d.1.eval env, d.2.eval env))
  | .convert m => shapeOf env m
  | _ => none

def Subscript.Takes (env : Env) (i : ℤ) : Subscript → Prop
  | .scalar x => i = x.eval env
  | .triplet picks => picks env i

/-- The subscripts take the element at an offset in the order of the elements, the first dimension
running first. -/
def TakesOffset (env : Env) : List (ℤ × ℤ) → List Subscript → ℤ → Prop
  | [], [], off => off = 0
  | (lb, n) :: dims, s :: subs, off =>
    ∃ i rest, s.Takes env (i + lb) ∧ TakesOffset env dims subs rest ∧ off = i + n * rest
  | _, _, _ => False

/-- The lower bounds the module variables have, and what pointers point to. -/
structure World where
  lower : Name → ℤ
  pointees : ℕ → Location → Prop

/-- The locations of the arguments; `true` for one no chain leads to from a variable. -/
abbrev Args := ℕ → Location → Bool → Prop

/-- A variable with nothing declared yet. -/
def bare : Address → Option Name
  | .addrOf s => some s
  | .convert m => bare m
  | _ => none

/-- The locations an address names, and whether it strays to them: through a pointer, an argument
from outside, or a subscript that goes on from an element.  The offset of an array whose shape is
not declared is left open, and a variable's own declare has its lower bound. -/
def Names (W : World) (args : Args) (env : Env) : Address → Location → Bool → Prop
  | .addrOf s, l, strays => l = ⟨.sym s, []⟩ ∧ strays = false
  | .declare m shape, l, strays =>
    Names W args env m l strays ∧
      ∀ s i n, bare m = some s → shape = some [(i, n)] → i.eval env = W.lower s
  | .convert m, l, strays | .derived m, l, strays => Names W args env m l strays
  | .designate m c subs _ _, l, strays =>
    ∃ base before, Names W args env m base before ∧
      match c, subs, base.path.getLast? with
      | c, [], _ => l = ⟨base.root, base.path ++ (c.map Step.component).toList⟩ ∧ strays = before
      | some c, _, _ =>
        ∃ off, l = ⟨base.root, base.path ++ [.component c, .element [off]]⟩ ∧ strays = before
      -- the elements of an array bound from an element on are those after it
      | none, subs, some (.element first) =>
        ∃ off, (∀ dims, shapeOf env m = some dims → TakesOffset env dims subs off) ∧
          l = ⟨base.root, base.path.dropLast ++ [.element (first.map (· + off))]⟩ ∧ strays = true
      | none, subs, _ =>
        ∃ off, (∀ dims, shapeOf env m = some dims → TakesOffset env dims subs off) ∧
          l = ⟨base.root, base.path ++ [.element [off]]⟩ ∧ strays = before
  | .arg n, l, strays => args n l strays
  | .pointer n, l, strays => W.pointees n l ∧ strays = true

/-! ## Procedures -/

inductive Cond where
  | lit (b : Bool)
  | val (v : ℕ)
  deriving DecidableEq

def Cond.eval (env : Env) : Cond → Bool
  | .lit b => b
  | .val v => decide (env v ≠ 0)

/-- A statement.  `store` writes something to what `target` names, reading what `source` names if it
is an assignment from an address; `leak` is any other use of an address. -/
inductive Stmt where
  | load (v : ℕ) (a : Address)
  | const (v : ℕ) (c : ℤ)
  | compute (v : ℕ) (f : Env → ℤ)
  | store (target : Address) (source : Option Address) (value : Env → Memory → Location → ℤ)
  | leak (a : Address)
  | ifOp (c : Cond) (thenBlock elseBlock : List Stmt)
  | loop (c : Cond) (body : List Stmt)
  | call (g : ℕ) (actuals : List Address)

/-- The procedures of a module by number; a number beyond them is an external procedure. -/
abbrev Module := List (List Stmt)

/-! ## Executions -/

/-- A write with the memory before and after it, and the locations it strays to; an external
procedure may stray to any. -/
structure Write where
  strays : Location → Prop
  before : Memory
  after : Memory

/-- The memory after a store. -/
def Stores (named : Location → Prop) (x : Location → ℤ) (m m' : Memory) : Prop :=
  ∀ l, ((∃ w, named w ∧ w.Covers l) → m' l = x l) ∧ ((¬ ∃ w, named w ∧ w.Covers l) → m' l = m l)

/-- An execution of statements with the writes it does, to its end or up to some moment, `none`
then. -/
inductive Exec (W : World) (M : Module) :
    Args → List Stmt → Env → Memory → List Write → Option (Env × Memory) → Prop
  | done {args : Args} {env : Env} {m : Memory} : Exec W M args [] env m [] (some (env, m))
  | stopped {args : Args} {ss : List Stmt} {env : Env} {m : Memory} : Exec W M args ss env m [] none
  | load {args : Args} {v : ℕ} {a : Address} {ss : List Stmt} {env : Env} {m : Memory}
      {w : Location} {stray : Bool} {l : List Write} {out : Option (Env × Memory)} :
      Names W args env a w stray → Exec W M args ss (Function.update env v (m w)) m l out →
      Exec W M args (.load v a :: ss) env m l out
  | const {args : Args} {v : ℕ} {c : ℤ} {ss : List Stmt} {env : Env} {m : Memory}
      {l : List Write} {out : Option (Env × Memory)} : Exec W M args ss
        (Function.update env v c) m l out →
      Exec W M args (.const v c :: ss) env m l out
  | compute {args : Args} {v : ℕ} {f : Env → ℤ} {ss : List Stmt} {env : Env} {m : Memory}
      {l : List Write} {out : Option (Env × Memory)} : Exec W M args ss
        (Function.update env v (f env)) m l out →
      Exec W M args (.compute v f :: ss) env m l out
  | store {args : Args} {t : Address} {src : Option Address} {x : Env → Memory → Location → ℤ}
      {ss : List Stmt} {env : Env} {m m₁ : Memory} {l : List Write} {out : Option (Env × Memory)} :
      Stores (fun w => ∃ stray, Names W args env t w stray) (x env m) m m₁ →
      Exec W M args ss env m₁ l out →
      Exec W M args (.store t src x :: ss) env m
        (⟨fun place => ∃ w, Names W args env t w true ∧ w.Covers place, m, m₁⟩ :: l) out
  | leak {args : Args} {a : Address} {ss : List Stmt} {env : Env} {m : Memory}
      {l : List Write} {out : Option (Env × Memory)} : Exec W M args ss env m l out →
      Exec W M args (.leak a :: ss) env m l out
  | branch {args : Args} {c : Cond} {t e ss : List Stmt} {env : Env} {m : Memory}
      {l : List Write} {out : Option (Env × Memory)} : Exec W M args
        ((if c.eval env then t else e) ++ ss) env m l out →
      Exec W M args (.ifOp c t e :: ss) env m l out
  | again {args : Args} {c : Cond} {b ss : List Stmt} {env : Env} {m : Memory}
      {l : List Write} {out : Option (Env × Memory)} : c.eval env = true →
        Exec W M args (b ++ .loop c b :: ss) env m l out →
      Exec W M args (.loop c b :: ss) env m l out
  | left {args : Args} {c : Cond} {b ss : List Stmt} {env : Env} {m : Memory}
      {l : List Write} {out : Option (Env × Memory)} : c.eval env = false →
        Exec W M args ss env m l out →
      Exec W M args (.loop c b :: ss) env m l out
  | call {args : Args} {g : ℕ} {xs : List Address} {ss body : List Stmt} {env env₁ : Env}
      {m m₁ : Memory} {l l' : List Write} {out : Option (Env × Memory)} : M[g]? = some body →
      Exec W M (fun n w stray => ∃ a, xs[n]? = some a ∧ Names W args env a w stray) body
        (fun _ => 0) m l
        (some (env₁, m₁)) →
      Exec W M args ss env m₁ l' out →
      Exec W M args (.call g xs :: ss) env m (l ++ l') out
  | callStopped {args : Args} {g : ℕ} {xs : List Address} {ss body : List Stmt} {env : Env}
      {m : Memory} {l : List Write} : M[g]? = some body →
      Exec W M (fun n w stray => ∃ a, xs[n]? = some a ∧ Names W args env a w stray) body
        (fun _ => 0) m l
        none →
      Exec W M args (.call g xs :: ss) env m l none
  -- an external procedure may write anything
  | external {args : Args} {g : ℕ} {xs : List Address} {ss : List Stmt} {env : Env}
      {m m₁ : Memory} {l : List Write} {out : Option (Env × Memory)} : M[g]? = none →
        Exec W M args ss env m₁ l out →
      Exec W M args (.call g xs :: ss) env m (⟨fun _ => True, m, m₁⟩ :: l) out

/-- An execution of a procedure called from outside, with arguments of its caller's, and the memory
at its end. -/
def Runs (W : World) (M : Module) (f : ℕ) (args : ℕ → Location → Prop) (m : Memory) (l : List Write)
    (last : Option Memory) : Prop :=
  ∃ body out, M[f]? = some body ∧ last = out.map Prod.snd ∧
    Exec W M (fun n w stray => args n w ∧ stray = true) body (fun _ => 0) m l out

end SpecializeGlobals

/-
# `SpecializeGlobals`

The pass that replaces the loads of module scalars of given values by constants and folds the
branches these decide, in rounds: the walk from a variable to the scalar inside it with the
subscripts of every level, the test that the module only loads the scalar, the replacement,
the fold and the rounds, which end because each one that goes on has settled a key.
-/

namespace SpecializeGlobals

open GlobalReads (Location Root Memory)

/-! ## Subscripts -/

/-- `declaredLowerBound` -/
def declaredLowerBound : Option Shape → Option ℤ
  | some [(.lit k, _)] => some k
  | _ => none

/-- `Subscripts`: the lower bound of the subscripts here, unset before the variable's own declare,
and what is to be added to them for the variable's. -/
structure Subscripts where
  lower : Option ℤ
  shift : ℤ
  known : Bool
  deriving DecidableEq

def Subscripts.start : Subscripts := ⟨none, 0, true⟩

def Subscripts.below (s : Subscripts) (shape : Option Shape) : Subscripts :=
  match s.known, declaredLowerBound shape with
  | true, some lb =>
    ⟨some lb, match s.lower with | some lo => s.shift + lo - lb | none => 0, true⟩
  | _, _ => ⟨none, 0, false⟩

/-- The variable's subscript of the literal subscript `k` here. -/
def Subscripts.of (s : Subscripts) (k : Option ℤ) : Option ℤ :=
  match k, s.known, s.lower with
  | some k, true, some _ => some (k + s.shift)
  | _, _, _ => none

/-! ## The walk from the variable -/

/-- `ScalarPath` -/
structure ScalarPath where
  element : Option ℤ
  component : Option Name
  deriving DecidableEq

/-- Where the walk is at an address: at the variable, at its element, at the scalar; at storage set
aside; at a part that may be the scalar and is only to be read, at some depth; at something it does
not know. -/
inductive Place where
  | atVariable (s : Subscripts)
  | element
  | target
  | aside
  | runtime (depth : ℕ)
  | blocked
  deriving DecidableEq

/-- `constantElement` -/
def constantElement (component : Option Name) (subscripts : List Subscript) (extra : Bool) :
    Option ℤ :=
  match component, subscripts, extra with
  | none, [.scalar (.lit k)], false => some k
  | _, _, _ => none

/-- The step from a record to its component: to the scalar, or aside. -/
def componentStep (path : ScalarPath) (component : Option Name) (subscripts : List Subscript)
    (extra shaped : Bool) : Place :=
  match component, subscripts, extra, shaped with
  | some c, [], false, false => if path.component = some c then .target else .aside
  | _, _, _, _ => .blocked

/-- A part that is only to be read goes on to at most sixteen levels. -/
def readDeeper (d : ℕ) : Place := if d < 16 then .runtime (d + 1) else .blocked

/-- The walk of `onlyLoaded` and `onlyReads`, at an address. -/
def walk (sym : Name) (path : ScalarPath) : Address → Place
  | .addrOf s =>
    if s = sym then
      if path.element = none ∧ path.component = none then .target else .atVariable .start
    else .aside
  -- the walk only follows what it meets from the variable on
  | .arg _ | .pointer _ => .aside
  | .declare m shape =>
    match walk sym path m with
    | .atVariable s => .atVariable (s.below shape)
    | .runtime d => readDeeper d
    | p => p
  | .convert m =>
    match walk sym path m with
    | .runtime d => readDeeper d
    | p => p
  | .derived m => if walk sym path m = .aside then .aside else .blocked
  | .designate m c subs extra shaped =>
    match walk sym path m with
    | .atVariable s =>
      match path.element with
      | some e =>
        match s.of (constantElement c subs extra) with
        -- another literal element is taken for other storage
        | some k => if k = e then (if path.component = none then .target else .element) else .aside
        -- an element at a runtime subscript may be this one
        | none => .runtime 0
      | none => componentStep path c subs extra shaped
    | .element => componentStep path c subs extra shaped
    | .runtime d => readDeeper d
    | .aside => .aside
    | .target | .blocked => .blocked

mutual
/-- A statement only reads the scalar, if it comes near it. -/
def onlyLoadedBy (sym : Name) (path : ScalarPath) : Stmt → Bool
  | .load _ a => decide (walk sym path a ≠ .blocked)
  | .const _ _ | .compute _ _ => true
  | .store t src _ =>
    decide (walk sym path t = .aside) &&
      match src with
      | some a => decide (walk sym path a ≠ .blocked)
      | none => true
  | .leak a => decide (walk sym path a = .aside)
  | .ifOp _ t e => onlyLoadedIn sym path t && onlyLoadedIn sym path e
  | .loop _ b => onlyLoadedIn sym path b
  | .call _ xs => xs.all fun a => decide (walk sym path a = .aside)

def onlyLoadedIn (sym : Name) (path : ScalarPath) : List Stmt → Bool
  | [] => true
  | s :: ss => onlyLoadedBy sym path s && onlyLoadedIn sym path ss
end

/-- `onlyLoaded`, over every address of the variable. -/
def onlyLoaded (sym : Name) (path : ScalarPath) (M : Module) : Bool := M.all (onlyLoadedIn sym path)

/-! ## The replacement -/

mutual
def replaceIn (sym : Name) (path : ScalarPath) (c : ℤ) : Stmt → Stmt
  | .load v a => if walk sym path a = .target then .const v c else .load v a
  | .const v k => .const v k
  | .compute v f => .compute v f
  | .store t src x => .store t src x
  | .leak a => .leak a
  | .ifOp d t e => .ifOp d (replaceAll sym path c t) (replaceAll sym path c e)
  | .loop d b => .loop d (replaceAll sym path c b)
  | .call g xs => .call g xs

def replaceAll (sym : Name) (path : ScalarPath) (c : ℤ) : List Stmt → List Stmt
  | [] => []
  | s :: ss => replaceIn sym path c s :: replaceAll sym path c ss
end

mutual
/-- The loads of the scalar in a statement. -/
def loadsIn (sym : Name) (path : ScalarPath) : Stmt → ℕ
  | .load _ a => if walk sym path a = .target then 1 else 0
  | .ifOp _ t e => loadsOf sym path t + loadsOf sym path e
  | .loop _ b => loadsOf sym path b
  | .const _ _ | .compute _ _ | .store _ _ _ | .leak _ | .call _ _ => 0

def loadsOf (sym : Name) (path : ScalarPath) : List Stmt → ℕ
  | [] => 0
  | s :: ss => loadsIn sym path s + loadsOf sym path ss
end

/-! ## The fold -/

mutual
/-- `foldConstantIf`, inner ones first. -/
def foldIf : Stmt → List Stmt
  | .ifOp (.lit b) t e => if b then foldIfs t else foldIfs e
  | .ifOp (.val v) t e => [.ifOp (.val v) (foldIfs t) (foldIfs e)]
  | .loop c b => [.loop c (foldIfs b)]
  | .load v a => [.load v a]
  | .const v k => [.const v k]
  | .compute v f => [.compute v f]
  | .store t src x => [.store t src x]
  | .leak a => [.leak a]
  | .call g xs => [.call g xs]

def foldIfs : List Stmt → List Stmt
  | [] => []
  | s :: ss => foldIf s ++ foldIfs ss
end

mutual
def ifsIn : Stmt → ℕ
  | .ifOp _ t e => 1 + ifsOf t + ifsOf e
  | .loop _ b => ifsOf b
  | .load _ _ | .const _ _ | .compute _ _ | .store _ _ _ | .leak _ | .call _ _ => 0

def ifsOf : List Stmt → ℕ
  | [] => 0
  | s :: ss => ifsIn s + ifsOf ss
end

def ifCount (M : Module) : ℕ := (M.map ifsOf).sum

/-- What the pass uses of the compiler: the canonicalisation patterns and the removal of uncalled
procedures.  Both keep the executions of the procedures that can be called, and the patterns make no
new `fir.if`. -/
structure Compiler where
  callable : ℕ → Prop
  canonicalize : Module → Module
  dropUncalled : Module → Module
  canonicalize_runs : ∀ W M f args m l last, callable f → Runs W M f args m l last →
    Runs W (canonicalize M) f args m l last
  dropUncalled_runs : ∀ W M f args m l last, callable f → Runs W M f args m l last →
    Runs W (dropUncalled M) f args m l last
  canonicalize_ifs : ∀ M, ifCount (canonicalize M) ≤ ifCount M

/-- `foldConstantBranches` -/
def foldConstantBranches (P : Compiler) (M : Module) : Module :=
  let M₁ := P.canonicalize M
  let M₂ := M₁.map foldIfs
  -- a folded branch may decide more for the patterns
  if ifCount M₂ < ifCount M₁ then foldConstantBranches P M₂ else M₂
termination_by ifCount M
decreasing_by exact Nat.lt_of_lt_of_le ‹_› (P.canonicalize_ifs M)

/-! ## Rounds -/

/-- A key: the variable, the path inside it if the rest of the key is one, whether it names a scalar
(`scalarTypeAt`), and the value if the text is one of its type (`buildConstant`). -/
structure Key where
  sym : Name
  path : Option ScalarPath
  scalar : Bool
  value : Option ℤ
  deriving DecidableEq

def addresses (sym : Name) : Address → Bool
  | .addrOf s => decide (s = sym)
  | .declare m _ | .convert m | .derived m => addresses sym m
  | .designate m _ _ _ _ => addresses sym m
  | .arg _ | .pointer _ => false

mutual
/-- The statement has an address of the variable. -/
def mentionsIn (sym : Name) : Stmt → Bool
  | .load _ a | .leak a => addresses sym a
  | .store t src _ => addresses sym t || src.any (addresses sym)
  | .ifOp _ t e => mentions sym t || mentions sym e
  | .loop _ b => mentions sym b
  | .call _ xs => xs.any (addresses sym)
  | .const _ _ | .compute _ _ => false

def mentions (sym : Name) : List Stmt → Bool
  | [] => false
  | s :: ss => mentionsIn sym s || mentions sym ss
end

/-- What one key does to the module: the new module, whether the key is done, and whether a load was
replaced. -/
def applyKey (M : Module) (key : Key) : Module × Bool × Bool :=
  match key.path with
  | none => (M, true, false)
  | some path =>
    -- nothing reads it any more
    if M.all (fun ss => !mentions key.sym ss) then (M, false, false)
    else if !key.scalar then (M, true, false)
    -- held back, to be tried again once branches are folded
    else if !onlyLoaded key.sym path M then (M, false, false)
    else
      match key.value with
      | none => (M, true, false)
      | some c =>
        (M.map (replaceAll key.sym path c), true, decide (0 < (M.map (loadsOf key.sym path)).sum))

/-- The state of the rounds: the module, the keys that are not done, and those a load was replaced
for, which the pass reports. -/
structure Rounds where
  module : Module
  left : List Key
  replaced : List Key

/-- One round over the keys. -/
def round (M : Module) : List Key → Rounds
  | [] => ⟨M, [], []⟩
  | key :: keys =>
    let r := applyKey M key
    let s := round r.1 keys
    ⟨s.module, if r.2.1 then s.left else key :: s.left, if r.2.2 then key :: s.replaced
      else s.replaced⟩

theorem applyKey_progress {M : Module} {key : Key} (h : (applyKey M key).2.2 = true) :
    (applyKey M key).2.1 = true := by
  unfold applyKey at h ⊢
  split at h
  · rfl
  · split_ifs at h ⊢
    split at h
    · rfl
    · rfl

theorem round_length (M : Module) (keys : List Key) : (round M keys).left.length ≤ keys.length := by
  induction keys generalizing M with
  | nil => exact Nat.le_refl _
  | cons key keys ih =>
    have := ih (applyKey M key).1
    simp only [round]
    split_ifs
    · exact Nat.le_succ_of_le this
    · exact Nat.succ_le_succ this

/-- A round with a replaced load has a key less to go on with. -/
theorem round_progress (M : Module) (keys : List Key) (h : (round M keys).replaced ≠ []) :
    (round M keys).left.length < keys.length := by
  induction keys generalizing M with
  | nil => exact (h rfl).elim
  | cons key keys ih =>
    have hle := round_length (applyKey M key).1 keys
    simp only [round] at h ⊢
    split_ifs at h ⊢ with hdone hreplaced
    · exact Nat.lt_succ_of_le hle
    · exact Nat.lt_succ_of_le hle
    · rename_i hreplaced
      exact (hdone (applyKey_progress hreplaced)).elim
    · exact Nat.succ_lt_succ (ih _ h)

/-- The rounds: they go on as long as a load was replaced. -/
def rounds (P : Compiler) (M : Module) (keys : List Key) : Rounds :=
  let r := round M keys
  if r.replaced = [] then { r with module := foldConstantBranches P r.module }
  else
    -- the uses in procedures only a folded branch called no longer count
    let s := rounds P (P.dropUncalled (foldConstantBranches P r.module)) r.left
    { s with replaced := r.replaced ++ s.replaced }
termination_by keys.length
decreasing_by exact round_progress M keys ‹_›

/-- The pass, on the values given. -/
def specializeGlobals (P : Compiler) (M : Module) (keys : List Key) : Rounds :=
  rounds P (P.dropUncalled M) keys

end SpecializeGlobals
