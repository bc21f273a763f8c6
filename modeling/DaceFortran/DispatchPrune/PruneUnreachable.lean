/-
# `PruneUnreachable`

The pass that erases the dispatch-table entries of methods no reachable `fir.dispatch`
invokes.  Reachable is what direct calls reach from the public functions; a dispatch is not
followed to what it may call.
-/
import DaceFortran.Lib.Worklist
import Mathlib.Data.Fintype.Fin

open List

namespace DispatchPrune

abbrev Name := List Char

/-- The equality of names, under a name of its own. -/
scoped instance lawfulName : LawfulBEq (List Char) := List.instLawfulBEq

/-! ## Modules -/

/-- An operation anywhere in a function: a call of a symbol, by its leaf, or through a pointer; a
dispatch of a method. -/
inductive Op where
  | firCall (callee : Option Name)
  | funcCall (callee : Name)
  | dispatch (method : Name)
  | other (n : ℕ)
  deriving DecidableEq

/-- A function; one without a body is a declaration. -/
structure Func where
  name : Name
  isPublic : Bool
  body : Option (List Op)
  deriving DecidableEq

/-- An entry of the dispatch table of a type: the method and the procedure bound to it. -/
structure DTEntry where
  type : Name
  method : Name
  proc : Name
  deriving DecidableEq

structure Module where
  functions : List Func
  entries : List DTEntry

namespace Module

variable (M : Module)

abbrev Index := Fin M.functions.length

def ops (f : M.Index) : List Op := (M.functions.get f).body.getD []

/-- `bySym`: the last function of the name. -/
def bySym (n : Name) : Option M.Index :=
  (List.finRange M.functions.length).reverse.find? fun f => decide ((M.functions.get f).name = n)

/-- `roots` -/
def roots : List M.Index :=
  (List.finRange M.functions.length).filter fun f =>
    (M.functions.get f).body.isSome && (M.functions.get f).isPublic

/-! ## The walk -/

/-- The function an operation calls directly. -/
def calleeOf : Op → Option M.Index
  | .firCall callee => callee.bind M.bySym
  | .funcCall callee => M.bySym callee
  | .dispatch _ | .other _ => none

def methodOf : Op → Option Name
  | .dispatch m => some m
  | _ => none

/-- What a function enqueues, the last one on top of the stack. -/
def enqueued (reachable : List M.Index) (f : M.Index) : List M.Index :=
  ((M.ops f).filterMap M.calleeOf).reverse.filter fun g => decide (g ∉ reachable)

/-- `reachable`, by the loop over `work`. -/
def reachable : List M.Index := Worklist.close M.enqueued M.roots.reverse []

/-- `reachedMethods` -/
def reachedMethods : List Name := M.reachable.reverse.flatMap fun f => (M.ops f).filterMap methodOf

/-- `dead`: the entries the pass erases. -/
def dead : List DTEntry :=
  if M.roots = [] then [] else M.entries.filter fun e => decide (e.method ∉ M.reachedMethods)

/-! ## Reachability -/

/-- A direct call. -/
def Calls (f g : M.Index) : Prop := ∃ op ∈ M.ops f, M.calleeOf op = some g

/-- A dispatch, to any binding of its method. -/
def Dispatches (f g : M.Index) : Prop :=
  ∃ e ∈ M.entries, Op.dispatch e.method ∈ M.ops f ∧ M.bySym e.proc = some g

/-- What direct calls reach from the public functions. -/
def CallReached (f : M.Index) : Prop := Worklist.Reached M.Calls M.roots f

/-- What direct calls and dispatches reach from the public functions. -/
def DispatchReached (f : M.Index) : Prop :=
  Worklist.Reached (fun f g => M.Calls f g ∨ M.Dispatches f g) M.roots f

/-! ## What is erased -/

theorem mem_enqueued_iff {seen : List M.Index} {f g : M.Index} :
    g ∈ M.enqueued seen f ↔ M.Calls f g ∧ g ∉ seen := by
  unfold enqueued Calls
  rw [mem_filter, mem_reverse, mem_filterMap, decide_eq_true_eq]

/-- The walk reaches what direct calls reach. -/
theorem mem_reachable_iff (f : M.Index) : f ∈ M.reachable ↔ M.CallReached f := by
  have hclosed : ∀ seen f g, M.Calls f g → g ∈ seen ∨ g ∈ M.enqueued seen f := by
    intro seen f g h
    by_cases hg : g ∈ seen
    · exact Or.inl hg
    · exact Or.inr (M.mem_enqueued_iff.2 ⟨h, hg⟩)
  have hpush : ∀ seen f, ∀ g ∈ M.enqueued seen f, M.Calls f g :=
    fun seen f g h => (M.mem_enqueued_iff.1 h).1
  have hroots : Worklist.Reached M.Calls M.roots.reverse f ↔ M.CallReached f := by
    constructor
    · intro h
      induction h with
      | root hf => exact .root (mem_reverse.1 hf)
      | step _ hab ih => exact .step ih hab
    · intro h
      induction h with
      | root hf => exact .root (mem_reverse.2 hf)
      | step _ hab ih => exact .step ih hab
  rw [← hroots]
  exact Worklist.mem_close_iff hclosed hpush M.roots.reverse f

theorem mem_reachedMethods_iff (m : Name) :
    m ∈ M.reachedMethods ↔ ∃ f, M.CallReached f ∧ Op.dispatch m ∈ M.ops f := by
  have hmethod : ∀ op : Op, methodOf op = some m ↔ op = .dispatch m := by
    intro op
    cases op with
    | dispatch m' => simp [methodOf]
    | firCall _ => simp [methodOf]
    | funcCall _ => simp [methodOf]
    | other _ => simp [methodOf]
  unfold reachedMethods
  rw [mem_flatMap]
  constructor
  · rintro ⟨f, hf, hm⟩
    obtain ⟨op, hop, he⟩ := mem_filterMap.1 hm
    rw [(hmethod op).1 he] at hop
    exact ⟨f, (M.mem_reachable_iff f).1 (mem_reverse.1 hf), hop⟩
  · rintro ⟨f, hf, hop⟩
    exact ⟨f, mem_reverse.2 ((M.mem_reachable_iff f).2 hf),
      mem_filterMap.2 ⟨_, hop, (hmethod _).2 rfl⟩⟩

/-- An entry is erased exactly if there is a public function and no function that direct calls reach
dispatches its method. -/
theorem mem_dead_iff (e : DTEntry) :
    e ∈ M.dead ↔ e ∈ M.entries ∧ M.roots ≠ [] ∧ ∀ f, M.CallReached f →
      Op.dispatch e.method ∉ M.ops f := by
  unfold dead
  split_ifs with hroots
  · simp [hroots]
  · rw [mem_filter, decide_eq_true_eq, M.mem_reachedMethods_iff]
    constructor
    · rintro ⟨he, hno⟩
      exact ⟨he, hroots, fun f hf hop => hno ⟨f, hf, hop⟩⟩
    · rintro ⟨he, -, hno⟩
      exact ⟨he, fun ⟨f, hf, hop⟩ => hno f hf hop⟩

end Module

/-- **No function that direct calls reach from a public one dispatches the method of an erased
entry.** -/
theorem dead_not_dispatched (M : Module) :
    ∀ e ∈ M.dead, ∀ f, M.CallReached f → Op.dispatch e.method ∉ M.ops f :=
  fun e he => ((M.mem_dead_iff e).1 he).2.2

/-! ## A dispatch behind a dispatch -/

/-- The entry dispatches `a`, and the procedure bound to `a` dispatches `b`. -/
def chained : Module where
  functions := [⟨['m'], true, some [.dispatch ['a']]⟩, ⟨['p'], false, some [.dispatch ['b']]⟩]
  entries := [⟨['t'], ['a'], ['p']⟩, ⟨['t'], ['b'], ['q']⟩]

def bindingB : DTEntry := ⟨['t'], ['b'], ['q']⟩

def chainedEntry : chained.Index := ⟨0, by decide⟩

theorem callReached_chained {f : chained.Index} (hf : chained.CallReached f) :
    f = chainedEntry := by
  induction hf with
  | @root f hf =>
    revert f
    decide
  | step _ hab ih =>
    obtain ⟨op, hop, hg⟩ := hab
    rw [ih, show chained.ops chainedEntry = [.dispatch ['a']] from rfl, mem_singleton] at hop
    rw [hop] at hg
    cases hg

theorem bindingB_dead : bindingB ∈ chained.dead := by
  rw [chained.mem_dead_iff]
  refine ⟨by decide, by decide, ?_⟩
  intro f hf
  rw [callReached_chained hf]
  decide

/-- The public procedure calls `p`, which dispatches `a`. -/
def calling : Module where
  functions := [⟨['m'], true, some [.funcCall ['p']]⟩, ⟨['p'], false, some [.dispatch ['a']]⟩]
  entries := [⟨['t'], ['a'], ['p']⟩, bindingB]

/-- The procedure called does not dispatch the method of the binding that is erased. -/
theorem dead_not_dispatched_entry :
    bindingB ∈ calling.dead ∧ Op.dispatch bindingB.method ∉ calling.ops ⟨1, by decide⟩ := by
  have hops : ∀ f : calling.Index, Op.dispatch bindingB.method ∉ calling.ops f := by decide
  have hdead : bindingB ∈ calling.dead :=
    (calling.mem_dead_iff bindingB).2 ⟨by decide, by decide, fun f _ => hops f⟩
  have hroot : calling.CallReached ⟨0, by decide⟩ := .root (by decide)
  have hcalled : calling.CallReached ⟨1, by decide⟩ :=
    .step hroot ⟨.funcCall ['p'], by decide, by decide⟩
  exact ⟨hdead, dead_not_dispatched calling bindingB hdead ⟨1, by decide⟩ hcalled⟩

/-- The binding of `b` is erased, though a procedure that a dispatch reaches invokes it. -/
theorem not_dead_dispatchReached :
    ¬ ∀ M : Module, ∀ e ∈ M.dead, ∀ f, M.DispatchReached f → Op.dispatch e.method ∉ M.ops f := by
  intro h
  have hroot : chained.DispatchReached chainedEntry := .root (by decide)
  have hreached : chained.DispatchReached ⟨1, by decide⟩ :=
    .step hroot (Or.inr ⟨⟨['t'], ['a'], ['p']⟩, by decide, by decide, by decide⟩)
  exact h chained _ bindingB_dead _ hreached (by decide)

end DispatchPrune
