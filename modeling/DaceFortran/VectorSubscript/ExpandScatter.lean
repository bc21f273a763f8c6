/-
# Expanding a vector-subscripted assignment

`ExpandVectorSubscriptScatter.cpp`: an assignment `d(idx) = rhs` with a rank-1 vector subscript
becomes a loop over the elements, and a loop before it that fills a temporary where `rhs` is an
elemental and the traced roots of both sides are one declare.
-/
import Mathlib.Data.List.Range
import Mathlib.Data.Int.Order.Basic

namespace VectorSubscript

/-- Values of elements: a subscript is read from one, the loop index is one. -/
class ElementValue (V : Type) where
  toIndex : V → ℤ
  ofIndex : ℤ → V

/-- The body of an elemental, as the value of its element.  `once`: an element loaded before the
loops; `load`: an element designated in the body; `apply`: the element of another elemental. -/
inductive Elem (Var V : Type) where
  | lit (v : V)
  | iv
  | once (a : Var) (i : ℤ)
  | load (a : Var) (sub : Elem Var V)
  | convert (f : V → V) (e : Elem Var V)
  | unary (f : V → V) (e : Elem Var V)
  | binary (f : V → V → V) (e₁ e₂ : Elem Var V)
  | apply (e : Elem Var V)

/-- The right-hand side: a scalar value, an array with its lower bound, a section, an elemental, or
a reference that is no array. -/
inductive Source (Var V : Type) where
  | scalar (e : Elem Var V)
  | whole (a : Var) (lower : ℤ)
  | slice (a : Var) (start stride : ℤ)
  | expr (e : Elem Var V)
  | other

/-- `hlfir.region_assign` with an `hlfir.elemental_addr` of `rank` dimensions over `dst`. -/
structure RegionAssign (Var V : Type) where
  rank : ℕ
  dst : Var
  idx : Elem Var V
  source : Source Var V

/-- How the scatter loop reads element `iv` of the source. -/
inductive SourceRead (Var V : Type) where
  | broadcast (e : Elem Var V)
  | apply (e : Elem Var V)
  | designateWhole (a : Var)
  | designateSlice (a : Var) (start stride : ℤ)
  | temp

/-- The generated loops: `tmp[i] = apply(gather, i)`, if any, then `dst(idx) = read`. -/
structure Loops (Var V : Type) where
  gather : Option (Elem Var V)
  dst : Var
  idx : Elem Var V
  read : SourceRead Var V

variable {Var V : Type} [DecidableEq Var] [ElementValue V]

/-- `traceRoot` of an element value: the declare reached through conversions, loads and designates,
in at most `n` steps. -/
def traceRoot : ℕ → Elem Var V → Option Var
  | n + 1, .convert _ e => traceRoot n e
  | n + 1, .once a _ => if 2 ≤ n then some a else none
  | n + 1, .load a _ => if 2 ≤ n then some a else none
  | _, _ => none

/-- The declare of the first designate in the body of an elemental; the body of an applied one is
another. -/
def firstDesignate : Elem Var V → Option Var
  | .load a sub => (firstDesignate sub).or (some a)
  | .convert _ e => firstDesignate e
  | .unary _ e => firstDesignate e
  | .binary _ e₁ e₂ => (firstDesignate e₁).or (firstDesignate e₂)
  | _ => none

/-- `rhsRoot` of an elemental. -/
def rhsRoot (e : Elem Var V) : Option Var := (traceRoot 128 e).or (firstDesignate e)

/-- `rewrite`. -/
def rewrite (op : RegionAssign Var V) : Except String (Loops Var V) :=
  if op.rank ≠ 1 then
    .error ("hlfir-expand-vector-subscript-scatter: rank-" ++ toString op.rank ++
      " scatter not yet supported (rank-1 only)")
  else
    match op.source with
    | .scalar e => .ok ⟨none, op.dst, op.idx, .broadcast e⟩
    | .whole a _ => .ok ⟨none, op.dst, op.idx, .designateWhole a⟩
    | .slice a start stride => .ok ⟨none, op.dst, op.idx, .designateSlice a start stride⟩
    | .expr e =>
      let aliases := decide (rhsRoot e = some op.dst)
      if aliases then .ok ⟨some e, op.dst, op.idx, .temp⟩ else .ok ⟨none, op.dst, op.idx, .apply e⟩
    | .other => .error "hlfir-expand-vector-subscript-scatter: unsupported source type"

/-! ## Running the loops -/

/-- The elements of every variable; distinct declares do not overlap. -/
abbrev Memory (Var V : Type) := Var → ℤ → V

/-- One element stored. -/
def store (m : Memory Var V) (d : Var) (i : ℤ) (v : V) : Memory Var V :=
  fun a j => if a = d ∧ j = i then v else m a j

/-- The value of element `k`: what is loaded once is loaded from `m₀`, what is designated in the
body from `m`. -/
def Elem.eval (m₀ m : Memory Var V) (k : ℤ) : Elem Var V → V
  | .lit v => v
  | .iv => ElementValue.ofIndex k
  | .once a i => m₀ a i
  | .load a sub => m a (ElementValue.toIndex (sub.eval m₀ m k))
  | .convert f e => f (e.eval m₀ m k)
  | .unary f e => f (e.eval m₀ m k)
  | .binary f e₁ e₂ => f (e₁.eval m₀ m k) (e₂.eval m₀ m k)
  | .apply e => e.eval m₀ m k

/-- `fir.do_loop` from 1 to `n`; nothing runs for an extent of zero. -/
def doLoop {σ : Type} (n : ℕ) (body : ℤ → σ → σ) (s : σ) : σ :=
  (List.range n).foldl (fun s (k : ℕ) => body (k + 1) s) s

/-- The gather loop over the temporary. -/
def runGather (m₀ : Memory Var V) (n : ℕ) (gather : Option (Elem Var V)) (tmp : ℤ → V) : ℤ → V :=
  match gather with
  | none => tmp
  | some e => doLoop n (fun k tmp j => if j = k then e.eval m₀ m₀ k else tmp j) tmp

/-- Element `k` of the source in the scatter loop.  A designate of a whole array takes `iv` as a
subscript of that array; one of a section counts from 1. -/
def SourceRead.eval (m₀ m : Memory Var V) (tmp : ℤ → V) (k : ℤ) : SourceRead Var V → V
  | .broadcast e => e.eval m₀ m₀ 0
  | .apply e => e.eval m₀ m k
  | .designateWhole a => m a k
  | .designateSlice a start stride => m a (start + (k - 1) * stride)
  | .temp => tmp k

/-- One turn of the scatter loop. -/
def Loops.turn (l : Loops Var V) (m₀ : Memory Var V) (tmp : ℤ → V) (k : ℤ) (m : Memory Var V) :
    Memory Var V :=
  store m l.dst (ElementValue.toIndex (l.idx.eval m₀ m k)) (l.read.eval m₀ m tmp k)

/-- The generated loops with extent `n`; `tmp` is what the temporary holds before. -/
def Loops.run (l : Loops Var V) (n : ℕ) (tmp : ℤ → V) (m : Memory Var V) : Memory Var V :=
  doLoop n (l.turn m (runGather m n l.gather tmp)) m

/-! ## What the assignment means -/

/-- Element `k` of the right-hand side, evaluated before any store. -/
def Source.element (m : Memory Var V) (k : ℤ) : Source Var V → Option V
  | .scalar e => some (e.eval m m 0)
  | .whole a lower => some (m a (lower + k - 1))
  | .slice a start stride => some (m a (start + (k - 1) * stride))
  | .expr e => some (e.eval m m k)
  | .other => none

/-- Fortran's assignment after its first `n` stores: source element `k` goes to `d(idx(k))`, both
evaluated in `m`. -/
def RegionAssign.assigned (op : RegionAssign Var V) (m : Memory Var V) (n : ℕ) : Memory Var V :=
  doLoop n (fun k m' => match op.source.element m k with
    | some v => store m' op.dst (ElementValue.toIndex (op.idx.eval m m k)) v
    | none => m') m

/-- **The assignment is implemented**: the pass rewrites it, and the loops leave what Fortran's
assignment leaves, for every extent. -/
def Implements (op : RegionAssign Var V) (m : Memory Var V) : Prop :=
  ∃ l, rewrite op = .ok l ∧ ∀ n tmp, l.run n tmp m = op.assigned m n

end VectorSubscript

/-
# When the loops implement the assignment

The memory before a turn is Fortran's after as many stores.  A turn goes wrong where its index or a
source that is not in the temporary reads an element of the destination that a turn before has
stored, or where a whole array is not numbered from 1.  Where none of this happens, judged by what
is read in the memory before the assignment, the assignment is implemented
(`implements_of_undisturbed`).
-/

namespace VectorSubscript

variable {Var V : Type} [DecidableEq Var]

/-! ## Stores -/

theorem store_same (m : Memory Var V) (d : Var) (i : ℤ) (v : V) : store m d i v d i = v := by
  simp [store]

theorem store_self {m : Memory Var V} {d : Var} {i : ℤ} {v : V} (h : m d i = v) :
    store m d i v = m := by
  funext a j
  by_cases hj : a = d ∧ j = i
  · rw [hj.1, hj.2, store_same, h]
  · simp [store, hj]

/-- Two stores that leave the same: they are one store, or neither changes anything. -/
def SameStore (m : Memory Var V) (d : Var) (i : ℤ) (v : V) (i' : ℤ) (v' : V) : Prop :=
  (i = i' ∧ v = v') ∨ (m d i = v ∧ m d i' = v')

theorem store_eq_iff {m : Memory Var V} {d : Var} {i i' : ℤ} {v v' : V} :
    store m d i v = store m d i' v' ↔ SameStore m d i v i' v' := by
  constructor
  · intro h
    by_cases hi : i = i'
    · refine .inl ⟨hi, ?_⟩
      have := congrFun (congrFun h d) i
      rwa [store_same, hi, store_same] at this
    · -- each index is left alone by the other store
      have hv := congrFun (congrFun h d) i
      have hv' := congrFun (congrFun h d) i'
      rw [store_same] at hv hv'
      simp only [store, true_and, hi, Ne.symm hi, if_false] at hv hv'
      exact .inr ⟨hv.symm, hv'⟩
  · rintro (⟨rfl, rfl⟩ | ⟨hv, hv'⟩)
    · rfl
    · rw [store_self hv, store_self hv']

/-! ## Loops -/

theorem doLoop_succ {σ : Type} (n : ℕ) (body : ℤ → σ → σ) (s : σ) :
    doLoop (n + 1) body s = body (n + 1) (doLoop n body s) := by
  simp only [doLoop, List.range_succ, List.foldl_append, List.foldl_cons, List.foldl_nil]

variable [ElementValue V]

omit [DecidableEq Var] in
/-- The temporary holds every element of the source. -/
theorem runGather_some (m : Memory Var V) (n : ℕ) (e : Elem Var V) (tmp : ℤ → V)
    {k : ℕ} (hk : k < n) :
    runGather m n (some e) tmp (k + 1) = e.eval m m (k + 1) := by
  simp only [runGather]
  induction n with
  | zero => omega
  | succ n ih =>
    rw [doLoop_succ]
    by_cases h : k = n
    · rw [h, if_pos rfl]
    · rw [if_neg (by omega)]
      exact ih (by omega)

/-! ## One turn -/

/-- What turn `k` reads of the source where the destination is as in `m'`: the temporary holds the
elements of an elemental whose root is the destination. -/
def RegionAssign.readIn (op : RegionAssign Var V) (m m' : Memory Var V) (k : ℤ) : Option V :=
  match op.source with
  | .scalar e => some (e.eval m m 0)
  | .whole a _ => some (m' a k)
  | .slice a start stride => some (m' a (start + (k - 1) * stride))
  | .expr e => some (if rhsRoot e = some op.dst then e.eval m m k else e.eval m m' k)
  | .other => none

/-- Turn `k` stores what it should: what it reads after the `k - 1` stores before, through its index
and its source, makes the same store as what was there before the assignment. -/
def RegionAssign.KeepsTurn (op : RegionAssign Var V) (m : Memory Var V) (n : ℕ) : Prop :=
  ∀ v v', op.readIn m (op.assigned m n) (n + 1) = some v → op.source.element m (n + 1) = some v' →
    SameStore (op.assigned m n) op.dst
      (ElementValue.toIndex (op.idx.eval m (op.assigned m n) (n + 1))) v
      (ElementValue.toIndex (op.idx.eval m m (n + 1))) v'

/-- The pass takes the assignment: one dimension, and a source it knows. -/
def RegionAssign.Supported (op : RegionAssign Var V) : Prop := op.rank = 1 ∧ op.source ≠ .other

variable {op : RegionAssign Var V} {m : Memory Var V}

/-- What is emitted: the turns store what is read in them. -/
theorem rewrite_supported (h : op.Supported) :
    ∃ l, rewrite op = .ok l ∧ ∀ (n : ℕ) tmp (k : ℕ) m', k < n →
      ∃ v, op.readIn m m' (k + 1) = some v ∧
      l.turn m (runGather m n l.gather tmp) (k + 1) m' =
        store m' op.dst (ElementValue.toIndex (op.idx.eval m m' (k + 1))) v := by
  obtain ⟨hrank, hsource⟩ := h
  unfold rewrite RegionAssign.readIn
  rw [if_neg (not_not.mpr hrank)]
  cases hs : op.source with
  | scalar e => exact ⟨_, rfl, fun _ _ _ _ _ => ⟨_, rfl, rfl⟩⟩
  | whole a lower => exact ⟨_, rfl, fun _ _ _ _ _ => ⟨_, rfl, rfl⟩⟩
  | slice a start stride => exact ⟨_, rfl, fun _ _ _ _ _ => ⟨_, rfl, rfl⟩⟩
  | expr e =>
    by_cases hroot : rhsRoot e = some op.dst
    · simp only [hroot, decide_true, if_true]
      refine ⟨_, rfl, fun n tmp k m' hk => ⟨_, rfl, ?_⟩⟩
      show store m' op.dst _ (runGather m n (some e) tmp (k + 1)) = _
      rw [runGather_some m n e tmp hk]
    · simp only [hroot, decide_false, if_false, Bool.false_eq_true]
      exact ⟨_, rfl, fun _ _ _ _ _ => ⟨_, rfl, rfl⟩⟩
  | other => exact absurd hs hsource

omit [DecidableEq Var] in
theorem element_isSome (h : op.Supported) (k : ℤ) : ∃ v, op.source.element m k = some v := by
  cases hs : op.source with
  | other => exact absurd hs h.2
  | _ => exact ⟨_, rfl⟩

theorem assigned_succ (op : RegionAssign Var V) (m : Memory Var V) (n : ℕ) {v : V}
    (h : op.source.element m (n + 1) = some v) :
    op.assigned m (n + 1) =
      store (op.assigned m n) op.dst (ElementValue.toIndex (op.idx.eval m m (n + 1))) v := by
  unfold RegionAssign.assigned
  rw [doLoop_succ]
  simp only [h]

/-! ## The loops -/

/-- The loops after `j` of the turns, where every turn before stored what it should. -/
theorem doLoop_eq_assigned {turn : ℤ → Memory Var V → Memory Var V} (h : op.Supported) {j : ℕ}
    (hturn : ∀ k < j, ∀ m', ∃ v, op.readIn m m' (k + 1) = some v ∧
      turn (k + 1) m' = store m' op.dst (ElementValue.toIndex (op.idx.eval m m' (k + 1))) v)
    (hkeeps : ∀ k < j, op.KeepsTurn m k) : doLoop j turn m = op.assigned m j := by
  induction j with
  | zero => rfl
  | succ j ih =>
    have ih' := ih (fun k hk => hturn k (by omega)) (fun k hk => hkeeps k (by omega))
    obtain ⟨v, hread, hstore⟩ := hturn j (Nat.lt_succ_self j) (op.assigned m j)
    obtain ⟨v', helem⟩ := element_isSome (m := m) h (j + 1)
    rw [doLoop_succ, ih', hstore, assigned_succ op m j helem]
    exact store_eq_iff.mpr (hkeeps j (Nat.lt_succ_self j) v v' hread helem)

/-- Turns that store what they should implement the assignment. -/
theorem implements_of_keepsTurn (h : op.Supported) (hkeeps : ∀ n, op.KeepsTurn m n) :
    Implements op m := by
  obtain ⟨l, hl, hturn⟩ := rewrite_supported (m := m) h
  refine ⟨l, hl, fun n tmp => ?_⟩
  exact doLoop_eq_assigned h (fun k hk m' => hturn n tmp k m' hk) fun k _ => hkeeps k

/-! ## The temporary -/

/-- A load of `a` under `c` conversions. -/
inductive IsLoadOf (a : Var) : ℕ → Elem Var V → Prop
  | load {sub} : IsLoadOf a 0 (.load a sub)
  | once {i} : IsLoadOf a 0 (.once a i)
  | convert {c f e} (h : IsLoadOf a c e) : IsLoadOf a (c + 1) (.convert f e)

/-- The arrays designated in the body of an elemental, in the order of its operations. -/
def Elem.designates : Elem Var V → List Var
  | .load a sub => sub.designates ++ [a]
  | .convert _ e | .unary _ e => e.designates
  | .binary _ e₁ e₂ => e₁.designates ++ e₂.designates
  | _ => []

/-- The elements that get a temporary when they are stored to `d`: a load of `d`, or else what
begins with one. -/
def BeginsWith (d : Var) (e : Elem Var V) : Prop :=
  (∃ c ≤ 125, IsLoadOf d c e) ∨
    (∀ a, ∀ c ≤ 125, ¬ IsLoadOf a c e) ∧ e.designates.head? = some d

omit [DecidableEq Var] [ElementValue V] in
theorem traceRoot_eq_some_iff {n : ℕ} {e : Elem Var V} {a : Var} :
    traceRoot n e = some a ↔ ∃ c, c + 3 ≤ n ∧ IsLoadOf a c e := by
  induction e generalizing n with
  | convert f e ih =>
    -- every conversion costs one step of the depth
    cases n with
    | zero =>
      constructor
      · intro h
        cases h
      · rintro ⟨c, hc, -⟩
        omega
    | succ n =>
      rw [traceRoot, ih]
      constructor
      · rintro ⟨c, hc, h⟩
        exact ⟨c + 1, by omega, .convert h⟩
      · rintro ⟨_, hc, h⟩
        cases h with
        | convert h => exact ⟨_, by omega, h⟩
  | once b i =>
    constructor
    · intro h
      rcases n with _ | n
      · cases h
      · simp only [traceRoot, Option.ite_none_right_eq_some, Option.some.injEq] at h
        obtain ⟨hn, rfl⟩ := h
        exact ⟨0, by omega, .once⟩
    · rintro ⟨_, hc, h⟩
      cases h
      obtain ⟨n, rfl⟩ : ∃ n', n = n' + 1 := ⟨n - 1, by omega⟩
      exact if_pos (by omega)
  | load b sub _ =>
    constructor
    · intro h
      rcases n with _ | n
      · cases h
      · simp only [traceRoot, Option.ite_none_right_eq_some, Option.some.injEq] at h
        obtain ⟨hn, rfl⟩ := h
        exact ⟨0, by omega, .load⟩
    · rintro ⟨_, hc, h⟩
      cases h
      obtain ⟨n, rfl⟩ : ∃ n', n = n' + 1 := ⟨n - 1, by omega⟩
      exact if_pos (by omega)
  | _ =>
    constructor
    · intro h
      rcases n with _ | n <;> cases h
    · rintro ⟨_, _, h⟩
      cases h

omit [DecidableEq Var] [ElementValue V] in
theorem firstDesignate_eq_head? (e : Elem Var V) : firstDesignate e = e.designates.head? := by
  induction e with
  | load a sub ih => rw [firstDesignate, Elem.designates, List.head?_append, ih]; rfl
  | convert f e ih => exact ih
  | unary f e ih => exact ih
  | binary f e₁ e₂ ih₁ ih₂ => rw [firstDesignate, Elem.designates, List.head?_append, ih₁, ih₂]
  | _ => rfl

omit [DecidableEq Var] [ElementValue V] in
/-- **The alias analysis finds what begins with the destination.** -/
theorem rhsRoot_eq_some_iff {e : Elem Var V} {d : Var} : rhsRoot e = some d ↔ BeginsWith d e := by
  have htrace : ∀ a, traceRoot 128 e = some a ↔ ∃ c ≤ 125, IsLoadOf a c e := by
    intro a
    rw [traceRoot_eq_some_iff]
    exact exists_congr fun c => and_congr_left fun _ => by omega
  rw [rhsRoot, Option.or_eq_some_iff, htrace, firstDesignate_eq_head?, BeginsWith]
  refine or_congr_right (and_congr_left fun _ => ?_)
  rw [Option.eq_none_iff_forall_ne_some]
  refine forall_congr' fun a => ?_
  rw [ne_eq, htrace]
  push Not
  rfl

/-! ## What the turns read -/

/-- The elements that an element expression designates. -/
def Elem.reads (m₀ m : Memory Var V) (k : ℤ) : Elem Var V → List (Var × ℤ)
  | .load a sub => sub.reads m₀ m k ++ [(a, ElementValue.toIndex (sub.eval m₀ m k))]
  | .convert _ e | .unary _ e | .apply e => e.reads m₀ m k
  | .binary _ e₁ e₂ => e₁.reads m₀ m k ++ e₂.reads m₀ m k
  | _ => []

omit [DecidableEq Var] in
/-- The value is that of the elements it reads. -/
theorem eval_congr {m₀ m m' : Memory Var V} {k : ℤ} {e : Elem Var V}
    (h : ∀ p ∈ e.reads m₀ m k, m' p.1 p.2 = m p.1 p.2) : e.eval m₀ m' k = e.eval m₀ m k := by
  induction e with
  | load a sub ih =>
    have hsub := ih fun p hp => h p (List.mem_append_left _ hp)
    rw [Elem.eval, Elem.eval, hsub]
    exact h _ (List.mem_append_right _ List.mem_cons_self)
  | convert f e ih => exact congrArg f (ih h)
  | unary f e ih => exact congrArg f (ih h)
  | binary f e₁ e₂ ih₁ ih₂ =>
    rw [Elem.eval, Elem.eval, ih₁ fun p hp => h p (List.mem_append_left _ hp),
      ih₂ fun p hp => h p (List.mem_append_right _ hp)]
  | apply e ih => exact ih h
  | _ => rfl

/-- The elements of the source that turn `k` reads from memory. -/
def RegionAssign.sourceReads (op : RegionAssign Var V) (m : Memory Var V) (k : ℤ)
    (p : Var × ℤ) : Prop :=
  match op.source with
  | .whole a _ => p = (a, k)
  | .slice a start stride => p = (a, start + (k - 1) * stride)
  | .expr e => ¬ BeginsWith op.dst e ∧ p ∈ e.reads m m k
  | _ => False

/-- Nothing the loops read in a turn, as of before the assignment, is an element of the destination
that a turn before stores, and a whole array is numbered from 1. -/
structure RegionAssign.Undisturbed (op : RegionAssign Var V) (m : Memory Var V) : Prop where
  supported : op.Supported
  numbered : ∀ a lower, op.source = .whole a lower → lower = 1
  apart : ∀ n : ℕ, ∀ p, p ∈ op.idx.reads m m (n + 1) ∨ op.sourceReads m (n + 1) p →
    p.1 = op.dst → ∀ j < n, ElementValue.toIndex (op.idx.eval m m ((j : ℤ) + 1)) ≠ p.2

/-- Fortran's stores change nothing but the elements the index names. -/
theorem assigned_of_apart (h : op.Supported) {n : ℕ} {p : Var × ℤ}
    (hp : p.1 = op.dst → ∀ j < n, ElementValue.toIndex (op.idx.eval m m ((j : ℤ) + 1)) ≠ p.2) :
    op.assigned m n p.1 p.2 = m p.1 p.2 := by
  induction n with
  | zero => rfl
  | succ n ih =>
    obtain ⟨v, hv⟩ := element_isSome (m := m) h (n + 1)
    rw [assigned_succ op m n hv, store, if_neg, ih fun hd j hj => hp hd j (by omega)]
    rintro ⟨hd, hi⟩
    exact hp hd n (Nat.lt_succ_self n) hi.symm

theorem RegionAssign.Undisturbed.keepsTurn (h : op.Undisturbed m) (n : ℕ) : op.KeepsTurn m n := by
  have hread : ∀ p, p ∈ op.idx.reads m m (n + 1) ∨ op.sourceReads m (n + 1) p →
      op.assigned m n p.1 p.2 = m p.1 p.2 := fun p hp =>
    assigned_of_apart h.supported (h.apart n p hp)
  intro v v' hv hv'
  left
  constructor
  · rw [eval_congr fun p hp => hread p (.inl hp)]
  · have hsource := fun p hp => hread p (.inr hp)
    have hnumbered := h.numbered
    unfold RegionAssign.readIn at hv
    unfold RegionAssign.sourceReads at hsource
    -- what the turn reads is as it was before the first one
    cases hs : op.source with
    | scalar e =>
      rw [hs] at hv hv'
      exact Option.some.inj (hv.symm.trans hv')
    | whole a lower =>
      obtain rfl := hnumbered a lower hs
      rw [hs] at hv hv' hsource
      obtain rfl := Option.some.inj hv
      obtain rfl := Option.some.inj hv'
      rw [hsource (a, n + 1) rfl]
      congr 1
      omega
    | slice a start stride =>
      rw [hs] at hv hv' hsource
      obtain rfl := Option.some.inj hv
      obtain rfl := Option.some.inj hv'
      exact hsource (a, start + ((n : ℤ) + 1 - 1) * stride) rfl
    | expr e =>
      rw [hs] at hv hv' hsource
      obtain rfl := Option.some.inj hv
      obtain rfl := Option.some.inj hv'
      split_ifs with hroot
      · rfl
      · exact eval_congr fun p hp => hsource p ⟨mt rhsRoot_eq_some_iff.2 hroot, hp⟩
    | other => exact absurd hs h.supported.2

instance : ElementValue ℤ := ⟨id, id⟩

inductive Swapped where
  | d | e | ix
  deriving DecidableEq

/-- `d(ix) = e + d`: the first array designated is not the destination. -/
def sumOfTwo : RegionAssign Swapped ℤ where
  rank := 1
  dst := .d
  idx := .load .ix .iv
  source := .expr (.binary (· + ·) (.load .e .iv) (.load .d .iv))

/-- `d = [10, 20]`, `e = [0, 0]`, `ix = [2, 1]`. -/
def swapMemory : Memory Swapped ℤ
  | .d, k => 10 * k
  | .e, _ => 0
  | .ix, k => 3 - k

/-- `d(ix) = d + e`: the first array designated is the destination, and the sums are gathered. -/
def gatheredSum : RegionAssign Swapped ℤ where
  rank := 1
  dst := .d
  idx := .load .ix .iv
  source := .expr (.binary (· + ·) (.load .d .iv) (.load .e .iv))

end VectorSubscript
