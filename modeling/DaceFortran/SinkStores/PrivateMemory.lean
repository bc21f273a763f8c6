/-
# What the operations do

A value may be an address: it then has the piece of memory it points into, its root.  The
operations the pass knows (loads, stores, ...) are given; what any other operation does is
left open, except that it reaches memory only through the addresses it was given: it sees
and changes the escaped pieces of memory and nothing else.  A run may stop anywhere.
-/
import DaceFortran.SinkStores.Moves

open List

namespace SinkStores

variable {ι D : Type} [DecidableEq ι]

/-! ## States -/

/-- A piece of memory: the `n`-th one that an alloca got, or one from outside the function. -/
inductive Root (ι : Type)
  | local (alloca : ι) (n : ℕ)
  | foreign (k : ℕ)
deriving DecidableEq

/-- A value: the memory it points into, if it is an address, and the rest of it. -/
structure Val (ι D : Type) where
  root : Option (Root ι)
  data : D

/-- The state of a run. -/
structure State (ι D : Type) where
  env : ValueId → Val ι D
  mem : Root ι → D → Val ι D
  /-- How often each alloca has run. -/
  count : ι → ℕ
  /-- The memory that other operations may reach. -/
  escaped : Root ι → Bool
  /-- The operands of the last terminator. -/
  yielded : List (Val ι D)

/-- A load and the value it gave. -/
abbrev Log (ι D : Type) := List (ι × Val ι D)

/-- What an operation with regions does next. -/
inductive Choice (ι D : Type)
  | enter (b : BlockId) (args : List (Val ι D))
  | finish (results : List (Val ι D))

/-- What the operations compute: `slot` and `covers` are the places of a piece of memory an access
reaches, `step` is the next step of an operation from its operands, the blocks it has run with what
they yielded, and the memory it sees; it says what the memory is afterwards. -/
structure Machine (ι D : Type) where
  slot : ι → D → D
  covers : ι → D → D → Bool
  stored : ι → D → D
  cast : ι → D → D
  declared : ι → List D → D
  allocated : ι → D
  undefined : D
  step : ι → List (Val ι D) → List (BlockId × List (Val ι D)) →
    (Root ι → Option (D → Val ι D)) → Choice ι D →
    (Root ι → D → Val ι D) → Prop

namespace State

/-- The values bound to results or block arguments. -/
def bind (s : State ι D) : List ValueId → List (Val ι D) → State ι D
  | v :: vs, x :: xs => bind { s with env := Function.update s.env v x } vs xs
  | _, _ => s

/-- The memory that other operations see. -/
def view (s : State ι D) (r : Root ι) : Option (D → Val ι D) :=
  if s.escaped r then some (s.mem r) else none

/-- The memory after another operation changed what it sees. -/
def overlay (s : State ι D) (m : Root ι → D → Val ι D) : State ι D :=
  { s with mem := fun r => if s.escaped r then m r else s.mem r }

/-- The memory that some values point into escapes. -/
def escape (s : State ι D) (vals : List (Val ι D)) : State ι D :=
  { s with escaped := fun r => s.escaped r || decide (some r ∈ vals.map Val.root) }

/-- A piece of memory overwritten. -/
def put (s : State ι D) (r : Root ι) (obj : D → Val ι D) : State ι D :=
  { s with mem := Function.update s.mem r obj }

/-- A value that is an address points into escaped memory. -/
def Known (s : State ι D) (x : Val ι D) : Prop := ∀ r, x.root = some r → s.escaped r = true

end State

/-! ## Operations -/

namespace Ir

/-- A scalar holds no address. -/
def deposited (M : Ir ι) (R : Machine ι D) (o : ι) (r : Root ι) (x : Val ι D) : Val ι D :=
  match r with
  | .local a _ => if (M.op a).isScalarAlloca then ⟨none, R.stored o x.data⟩
      else ⟨x.root, R.stored o x.data⟩
  | .foreign _ => ⟨x.root, R.stored o x.data⟩

/-- A value written through an address. -/
def write (M : Ir ι) (R : Machine ι D) (o : ι) (addr x : Val ι D) (s : State ι D) : State ι D :=
  match addr.root with
  | none => s
  | some r =>
    (s.put r (fun d => if R.covers o addr.data d then M.deposited R o r x else s.mem r d)).escape
      [M.deposited R o r x]

/-- Whether the behaviour of an operation is left open. -/
def driven (M : Ir ι) (o : ι) : Bool :=
  match M.op o with
  | .other _ _ _ => true
  | .assign _ _ scalarRhs => !scalarRhs
  | _ => false

/-- What the other operations do, and the loads they make. -/
def effect (M : Ir ι) (R : Machine ι D) (o : ι) (s : State ι D) : Log ι D × State ι D :=
  match M.op o with
  | .alloca _ _ result =>
    ([], { s.bind [result] [⟨some (.local o (s.count o)), R.allocated o⟩] with
      count := Function.update s.count o (s.count o + 1) })
  | .declare memref others results =>
    ([], s.bind results (results.map
      (fun _ => ⟨(s.env memref).root,
        R.declared o ((memref :: others).map (fun v => (s.env v).data))⟩)))
  | .convert value result =>
      ([], s.bind [result] [⟨(s.env value).root, R.cast o (s.env value).data⟩])
  | .load memref result =>
    let x := match (s.env memref).root with
      | none => ⟨none, R.undefined⟩
      | some r => s.mem r (R.slot o (s.env memref).data)
    ([(o, x)], s.bind [result] [x])
  | .store value memref => ([], M.write R o (s.env memref) (s.env value) s)
  | .assign rhs lhs _ => ([], M.write R o (s.env lhs) ⟨none, (s.env rhs).data⟩ s)
  | .terminator operands =>
      ([], { s.escape (operands.map s.env) with yielded := operands.map s.env })
  | .other _ _ _ => ([], s)

/-! ## Runs -/

end Ir

/-- Code to run: one operation, operations in a row, or an operation with the blocks it has run so
far. -/
inductive Code (ι D : Type)
  | run (o : ι)
  | seq (ops : List ι)
  | drive (o : ι) (vals : List (Val ι D)) (hist : List (BlockId × List (Val ι D)))

/-- `M.Exec R L c s log res`: running `c` in `s` makes the loads of `log` and ends in `res`, or
stops after them if `res` is `none`. -/
inductive Exec (M : Ir ι) (R : Machine ι D) (L : Layout ι) :
    Code ι D → State ι D → Log ι D → Option (State ι D) → Prop
  | stop {c : Code ι D} {s : State ι D} : Exec M R L c s [] none
  | simple {o : ι} {s : State ι D} (hop : M.driven o = false) :
      Exec M R L (.run o) s (M.effect R o s).1 (some (M.effect R o s).2)
  | start {o : ι} {s : State ι D} {log : Log ι D} {res : Option (State ι D)}
      (hop : M.driven o = true)
      (h : Exec M R L (.drive o ((M.op o).operands.map s.env) [])
        (s.escape ((M.op o).operands.map s.env)) log res) :
      Exec M R L (.run o) s log res
  | nil {s : State ι D} : Exec M R L (.seq []) s [] (some s)
  | cons {o : ι} {ops : List ι} {s s' : State ι D} {log₁ log₂ : Log ι D} {res : Option (State ι D)}
      (h₁ : Exec M R L (.run o) s log₁ (some s')) (h₂ : Exec M R L (.seq ops) s' log₂ res) :
      Exec M R L (.seq (o :: ops)) s (log₁ ++ log₂) res
  | halt {o : ι} {ops : List ι} {s : State ι D} {log : Log ι D}
      (h : Exec M R L (.run o) s log none) :
      Exec M R L (.seq (o :: ops)) s log none
  | finish {o : ι} {vals : List (Val ι D)} {hist : List (BlockId × List (Val ι D))} {s : State ι D}
      {results : List (Val ι D)} {m : Root ι → D → Val ι D} (hop : M.driven o = true)
      (hstep : R.step o vals hist s.view (.finish results) m) (hvals : ∀ x ∈ results, s.Known x)
      (hmem : ∀ r, s.escaped r = true → ∀ d, s.Known (m r d)) :
      Exec M R L (.drive o vals hist) s [] (some ((s.overlay m).bind (M.op o).results results))
  | enter {o : ι} {vals : List (Val ι D)} {hist : List (BlockId × List (Val ι D))}
      {s s' : State ι D} {b : BlockId}
      {args : List (Val ι D)} {m : Root ι → D → Val ι D} {log₁ log₂ : Log ι D}
        {res : Option (State ι D)}
      (hstep : R.step o vals hist s.view (.enter b args) m) (hb : b ∈ (M.op o).blocks)
      (hvals : ∀ x ∈ args, s.Known x) (hmem : ∀ r, s.escaped r = true → ∀ d, s.Known (m r d))
      (h₁ : Exec M R L (.seq (L b)) ((s.overlay m).bind (M.args b) args) log₁ (some s'))
      (h₂ : Exec M R L (.drive o vals (hist ++ [(b, s'.yielded)])) s' log₂ res) :
      Exec M R L (.drive o vals hist) s (log₁ ++ log₂) res
  | enterHalt {o : ι} {vals : List (Val ι D)} {hist : List (BlockId × List (Val ι D))}
      {s : State ι D} {b : BlockId}
      {args : List (Val ι D)} {m : Root ι → D → Val ι D} {log : Log ι D}
      (hstep : R.step o vals hist s.view (.enter b args) m) (hb : b ∈ (M.op o).blocks)
      (hvals : ∀ x ∈ args, s.Known x) (hmem : ∀ r, s.escaped r = true → ∀ d, s.Known (m r d))
      (h : Exec M R L (.seq (L b)) ((s.overlay m).bind (M.args b) args) log none) :
      Exec M R L (.drive o vals hist) s log none

namespace State

/-- Nothing points into memory of the function, and none of it has escaped: before a function is
run. -/
structure Fresh (s : State ι D) : Prop where
  env : ∀ v, (s.env v).root = none
  mem : ∀ r d a n, (s.mem r d).root ≠ some (.local a n)
  escaped : ∀ a n, s.escaped (.local a n) = false

end State

end SinkStores

/-
# Memory that nothing else reaches

The memory of an alloca whose address does not escape stays private in every run: only the
addresses derived from the alloca point into it.  Code that does not access it therefore
runs the same whatever it holds, and leaves it as it is.
-/

namespace SinkStores

variable {ι D : Type} [DecidableEq ι]

/-! ## States -/

namespace State

variable {s : State ι D}

omit [DecidableEq ι] in
@[simp] theorem bind_mem (s : State ι D) (vs : List ValueId) (xs : List (Val ι D)) :
    (s.bind vs xs).mem = s.mem := by
  fun_induction State.bind s vs xs with
  | case1 s v vs x xs ih => rw [ih]
  | case2 s vs xs h => rfl

omit [DecidableEq ι] in
@[simp] theorem bind_escaped (s : State ι D) (vs : List ValueId) (xs : List (Val ι D)) :
    (s.bind vs xs).escaped = s.escaped := by
  fun_induction State.bind s vs xs with
  | case1 s v vs x xs ih => rw [ih]
  | case2 s vs xs h => rfl

omit [DecidableEq ι] in
/-- A value after some were bound is an old one, or one of these. -/
theorem bind_env (s : State ι D) (vs : List ValueId) (xs : List (Val ι D)) (v : ValueId) :
    (s.bind vs xs).env v = s.env v ∨ v ∈ vs ∧ (s.bind vs xs).env v ∈ xs := by
  fun_induction State.bind s vs xs with
  | case1 s w vs x xs ih =>
    rcases ih with ih | ⟨hv, hx⟩
    · by_cases hvw : v = w
      · subst hvw
        rw [ih]
        simp only [Function.update_self]
        exact Or.inr ⟨mem_cons_self, mem_cons_self⟩
      · simp only [Function.update_of_ne hvw] at ih
        exact Or.inl ih
    · exact Or.inr ⟨mem_cons_of_mem w hv, mem_cons_of_mem x hx⟩
  | case2 s vs xs h => exact Or.inl rfl

omit [DecidableEq ι] in
theorem bind_env_of_notMem {vs : List ValueId} {v : ValueId} (hv : v ∉ vs) (s : State ι D)
    (xs : List (Val ι D)) :
    (s.bind vs xs).env v = s.env v :=
  (bind_env s vs xs v).resolve_right (fun h => hv h.1)

theorem put_bind (s : State ι D) (r : Root ι) (obj : D → Val ι D) (vs : List ValueId)
    (xs : List (Val ι D)) :
    (s.put r obj).bind vs xs = (s.bind vs xs).put r obj := by
  induction vs generalizing s xs with
  | nil => simp [State.bind]
  | cons v vs ih =>
    cases xs with
    | nil => simp [State.bind]
    | cons x xs =>
      rw [State.bind, State.bind, ← ih]
      rfl

variable {r r' : Root ι}

theorem put_comm (s : State ι D) (hr : r ≠ r') (obj obj' : D → Val ι D) :
    (s.put r obj).put r' obj' = (s.put r' obj').put r obj := by
  rw [put, put, put, put]
  congr 1
  exact Function.update_comm hr obj obj' s.mem

@[simp] theorem put_put (s : State ι D) (r : Root ι) (obj obj' : D → Val ι D) :
    (s.put r obj).put r obj' = s.put r obj' := by
  simp [put]

theorem put_self (s : State ι D) (r : Root ι) : s.put r (s.mem r) = s := by
  simp [put]

theorem put_mem_self (s : State ι D) (r : Root ι) (obj : D → Val ι D) :
    (s.put r obj).mem r = obj := by
  simp [put]

theorem put_mem_of_ne (hr : r' ≠ r) (s : State ι D) (obj : D → Val ι D) :
    (s.put r obj).mem r' = s.mem r' := by
  simp [put, hr]

/-- What has not escaped is not seen. -/
theorem put_view (hr : s.escaped r = false) (obj : D → Val ι D) : (s.put r obj).view = s.view := by
  funext r'
  by_cases h : r' = r
  · subst h
    simp [view, put, hr]
  · simp [view, put, h]

/-- What has not escaped is not overwritten. -/
theorem put_overlay (hr : s.escaped r = false) (obj : D → Val ι D) (m : Root ι → D → Val ι D) :
    (s.put r obj).overlay m = (s.overlay m).put r obj := by
  rw [overlay, overlay, put, put]
  congr 1
  funext r'
  by_cases h : r' = r
  · subst h
    simp [hr]
  · simp [h]

omit [DecidableEq ι] in
theorem overlay_mem (hr : s.escaped r = false) (m : Root ι → D → Val ι D) :
    (s.overlay m).mem r = s.mem r := by
  simp [overlay, hr]

/-- A value that is no address lets nothing escape. -/
theorem escape_number (s : State ι D) (d : D) : s.escape [⟨none, d⟩] = s := by
  simp [escape]

end State

/-! ## Private memory -/

/-- A piece of memory that the alloca `a` got. -/
def IsLocal (a : ι) (r : Root ι) : Prop := ∃ n, r = .local a n

/-- Only the addresses derived from `a` point into the memory `a` got, and none of it has
escaped. -/
structure Private (M : Ir ι) (a : ι) (s : State ι D) : Prop where
  env : ∀ v r, (s.env v).root = some r → (IsLocal a r ↔ M.Derived a v)
  mem : ∀ r d r', (s.mem r d).root = some r' → ¬ IsLocal a r'
  escaped : ∀ r, IsLocal a r → s.escaped r = false

namespace Private

variable {M : Ir ι} {a : ι} {s : State ι D}

omit [DecidableEq ι] in
theorem bind (h : Private M a s) {vs : List ValueId} {xs : List (Val ι D)}
    (hx : ∀ v ∈ vs, ∀ x ∈ xs, ∀ r, x.root = some r → (IsLocal a r ↔ M.Derived a v)) :
    Private M a (s.bind vs xs) where
  env := by
    intro v r hr
    rcases State.bind_env s vs xs v with henv | ⟨hv, hmem⟩
    · exact h.env v r (henv ▸ hr)
    · exact hx v hv _ hmem r hr
  mem := by simpa using h.mem
  escaped := by simpa using h.escaped

theorem put (h : Private M a s) {r : Root ι} {obj : D → Val ι D}
    (hobj : ∀ d r', (obj d).root = some r' → ¬ IsLocal a r') : Private M a (s.put r obj) where
  env := h.env
  mem := by
    intro r₁ d r' hr'
    by_cases hr : r₁ = r
    · subst hr
      rw [State.put_mem_self] at hr'
      exact hobj d r' hr'
    · rw [State.put_mem_of_ne hr] at hr'
      exact h.mem r₁ d r' hr'
  escaped := h.escaped

theorem escape (h : Private M a s) {vals : List (Val ι D)}
    (hvals : ∀ x ∈ vals, ∀ r, x.root = some r → ¬ IsLocal a r) : Private M a (s.escape vals) where
  env := h.env
  mem := h.mem
  escaped := by
    intro r hr
    simp only [State.escape, Bool.or_eq_false_iff, decide_eq_false_iff_not]
    refine ⟨h.escaped r hr, ?_⟩
    intro hmem
    obtain ⟨x, hx, hxr⟩ := mem_map.1 hmem
    exact hvals x hx r hxr hr

omit [DecidableEq ι] in
theorem overlay (h : Private M a s) {m : Root ι → D → Val ι D}
    (hm : ∀ r, s.escaped r = true → ∀ d, s.Known (m r d)) : Private M a (s.overlay m) where
  env := h.env
  mem := by
    intro r d r' hr' hlocal
    simp only [State.overlay] at hr'
    split at hr'
    · rename_i hr
      have := hm r hr d r' hr'
      rw [h.escaped r' hlocal] at this
      cases this
    · exact h.mem r d r' hr' hlocal
  escaped := h.escaped

omit [DecidableEq ι] in
/-- What is known does not point into private memory. -/
theorem not_local (h : Private M a s) {x : Val ι D} (hx : s.Known x) {r : Root ι}
    (hr : x.root = some r) :
    ¬ IsLocal a r := by
  intro hlocal
  have := hx r hr
  rw [h.escaped r hlocal] at this
  cases this

end Private

namespace Ir

variable {M : Ir ι} {R : Machine ι D} {L : Layout ι} {a : ι} {acc : Accesses ι} {s : State ι D}

/-! ## Derived addresses -/

variable {v : ValueId} {o : ι}

omit [DecidableEq ι] in
/-- What a derived address is a result of. -/
theorem Derived.definedBy (h : M.Derived a v) :
    v ∈ (M.op a).results ∨ ∃ u x, M.Derived a x ∧
      ((∃ others results, M.op u = .declare x others results ∧ v ∈ results) ∨
        M.op u = .convert x v) := by
  obtain ⟨r, hr, hv⟩ := h
  rcases Relation.ReflTransGen.cases_tail hv with rfl | ⟨x, hx, u, hu⟩
  · exact Or.inl hr
  · exact Or.inr ⟨u, x, ⟨r, hr, hx⟩, hu⟩

omit [DecidableEq ι] in
/-- Whether a result of an operation is derived from `a`. -/
theorem derived_result (hv : v ∈ (M.op o).results) :
    M.Derived a v ↔ o = a ∨ ∃ x, M.Derived a x ∧
      ((∃ others results, M.op o = .declare x others results) ∨ ∃ r, M.op o = .convert x r) := by
  constructor
  · intro h
    rcases h.definedBy with hres | ⟨u, x, hx, ⟨others, results, hop, hres⟩ | hop⟩
    · exact Or.inl (M.result_unique hv hres)
    · obtain rfl : o = u := M.result_unique hv (by rw [hop]; exact hres)
      exact Or.inr ⟨x, hx, Or.inl ⟨others, results, hop⟩⟩
    · obtain rfl : o = u := M.result_unique hv (by rw [hop]; exact mem_singleton_self v)
      exact Or.inr ⟨x, hx, Or.inr ⟨v, hop⟩⟩
  · rintro (rfl | ⟨x, ⟨r, hr, hx⟩, ⟨others, results, hop⟩ | ⟨y, hop⟩⟩)
    · exact ⟨v, hv, .refl⟩
    · rw [hop] at hv
      exact ⟨r, hr, hx.tail ⟨o, Or.inl ⟨others, results, hop, hv⟩⟩⟩
    · rw [hop] at hv
      obtain rfl := mem_singleton.1 hv
      exact ⟨r, hr, hx.tail ⟨o, Or.inr hop⟩⟩

omit [DecidableEq ι] in
/-- A block argument is not derived from an alloca. -/
theorem not_derived_args {b : BlockId} (hv : v ∈ M.args b) : ¬ M.Derived a v := by
  intro h
  rcases h.definedBy with hres | ⟨u, x, -, ⟨others, results, hop, hres⟩ | hop⟩
  · exact M.args_unique hv hres
  · exact M.args_unique (o := u) hv (by rw [hop]; exact hres)
  · exact M.args_unique (o := u) hv (by rw [hop]; exact mem_singleton_self v)

omit [DecidableEq ι] in
/-- The alloca itself is one. -/
theorem NonEscaping.op (h : M.NonEscaping a acc) :
    ∃ sizes result, M.op a = .alloca true sizes result := by
  have := h.scalar
  cases hop : M.op a with
  | alloca scalar sizes result =>
    rw [hop] at this
    have : scalar = true := this
    exact ⟨sizes, result, by rw [this]⟩
  | _ => simp [hop, Op.isScalarAlloca] at this

omit [DecidableEq ι] in
/-- Results of operations whose behaviour is open, and of loads, are not derived. -/
theorem not_derived_result (h : M.NonEscaping a acc) (hv : v ∈ (M.op o).results)
    (ho : M.driven o = true ∨ ∃ memref result, M.op o = .load memref result) : ¬ M.Derived a v := by
  obtain ⟨sizes, result, ha⟩ := h.op
  rw [derived_result hv]
  rintro (rfl | ⟨x, -, ⟨others, results, hop⟩ | ⟨y, hop⟩⟩)
  · rcases ho with ho | ⟨_, _, ho⟩
    · simp [driven, ha] at ho
    · rw [ha] at ho
      cases ho
  · rcases ho with ho | ⟨_, _, ho⟩
    · simp [driven, hop] at ho
    · rw [hop] at ho
      cases ho
  · rcases ho with ho | ⟨_, _, ho⟩
    · simp [driven, hop] at ho
    · rw [hop] at ho
      cases ho

omit [DecidableEq ι] in
/-- Operands of operations whose behaviour is open are not derived. -/
theorem not_derived_operand (h : M.NonEscaping a acc) (hv : v ∈ (M.op o).operands)
    (ho : M.driven o = true) : ¬ M.Derived a v := by
  intro hd
  have hacc := h.accessed v hd o (M.mem_uses.2 hv)
  rw [driven] at ho
  cases hop : M.op o <;> simp only [hop] at ho hacc
  all_goals try cases ho
  rw [hacc.2.1] at ho
  cases ho

omit [DecidableEq ι] in
/-- What an operation gives on is derived exactly if what it is given is. -/
theorem derived_declare (h : M.NonEscaping a acc) {memref v : ValueId}
    {others results : List ValueId}
    (hop : M.op o = .declare memref others results) (hv : v ∈ results) : M.Derived a v ↔
      M.Derived a memref := by
  rw [derived_result (o := o) (by rw [hop]; exact hv)]
  constructor
  · rintro (rfl | ⟨x, hd, ⟨_, _, hop'⟩ | ⟨_, hop'⟩⟩)
    · obtain ⟨_, _, ha⟩ := h.op
      rw [hop] at ha
      cases ha
    · rw [hop] at hop'
      cases hop'
      exact hd
    · rw [hop] at hop'
      cases hop'
  · exact fun hd => Or.inr ⟨memref, hd, Or.inl ⟨others, results, hop⟩⟩

omit [DecidableEq ι] in
theorem derived_convert (h : M.NonEscaping a acc) {value v : ValueId}
    (hop : M.op o = .convert value v) :
    M.Derived a v ↔ M.Derived a value := by
  rw [derived_result (o := o) (by rw [hop]; exact mem_singleton_self v)]
  constructor
  · rintro (rfl | ⟨x, hd, ⟨_, _, hop'⟩ | ⟨_, hop'⟩⟩)
    · obtain ⟨_, _, ha⟩ := h.op
      rw [hop] at ha
      cases ha
    · rw [hop] at hop'
      cases hop'
    · rw [hop] at hop'
      cases hop'
      exact hd
  · exact fun hd => Or.inr ⟨value, hd, Or.inr ⟨v, hop⟩⟩

omit [DecidableEq ι] in
/-- An alloca's result is derived from that alloca only. -/
theorem derived_alloca {scalar : Bool} {sizes : List ValueId}
    (hop : M.op o = .alloca scalar sizes v) : M.Derived a v ↔ o = a := by
  rw [derived_result (o := o) (by rw [hop]; exact mem_singleton_self v)]
  constructor
  · rintro (rfl | ⟨x, -, ⟨_, _, hop'⟩ | ⟨_, hop'⟩⟩)
    · rfl
    · rw [hop] at hop'
      cases hop'
    · rw [hop] at hop'
      cases hop'
  · exact Or.inl

/-! ## Operations -/

omit [DecidableEq ι] in
theorem deposited_root {r r' : Root ι} {x : Val ι D} (h : (M.deposited R o r x).root = some r') :
    x.root = some r' := by
  cases r with
  | foreign k => exact h
  | «local» b n =>
    simp only [deposited] at h
    split at h
    · cases h
    · exact h

theorem private_write (hs : Private M a s) {addr x : Val ι D}
    (hx : ∀ r, x.root = some r → ¬ IsLocal a r) : Private M a (M.write R o addr x s) := by
  rw [write]
  cases haddr : addr.root with
  | none => exact hs
  | some r =>
    apply Private.escape
    · apply hs.put
      intro d r' hr'
      split at hr'
      · exact hx r' (deposited_root hr')
      · exact hs.mem r d r' hr'
    · intro y hy r' hr'
      rw [mem_singleton.1 hy] at hr'
      exact hx r' (deposited_root hr')

/-- **One operation keeps private memory private.** -/
theorem private_effect (h : M.NonEscaping a acc) (hs : Private M a s) (ho : M.driven o = false) :
    Private M a (M.effect R o s).2 := by
  cases hop : M.op o with
  | alloca scalar sizes result =>
    simp only [effect, hop]
    have hb : Private M a (s.bind [result] [⟨some (.local o (s.count o)), R.allocated o⟩]) := by
      apply hs.bind
      intro v hv x hx r hr
      rw [mem_singleton.1 hx] at hr
      obtain rfl := Option.some.inj hr
      rw [mem_singleton.1 hv, derived_alloca hop]
      constructor
      · rintro ⟨n, hn⟩
        cases hn
        rfl
      · rintro rfl
        exact ⟨_, rfl⟩
    exact ⟨hb.env, hb.mem, hb.escaped⟩
  | declare memref others results =>
    simp only [effect, hop]
    apply hs.bind
    intro v hv x hx r hr
    obtain ⟨-, -, rfl⟩ := mem_map.1 hx
    rw [hs.env memref r hr, derived_declare h hop hv]
  | convert value result =>
    simp only [effect, hop]
    apply hs.bind
    intro v hv x hx r hr
    rw [mem_singleton.1 hx] at hr
    rw [mem_singleton.1 hv, hs.env value r hr, derived_convert h hop]
  | load memref result =>
    -- memory holds no private address
    simp only [effect, hop]
    apply hs.bind
    intro v hv x hx r hr
    have hnot := not_derived_result h (o := o) (v := v) (by rw [hop]; exact hv)
      (Or.inr ⟨memref, result, hop⟩)
    rw [iff_false_right hnot]
    rw [mem_singleton.1 hx] at hr
    split at hr
    · cases hr
    · exact hs.mem _ _ r hr
  | store value memref =>
    -- a private address is not the value of a store, as all its uses are accesses
    simp only [effect, hop]
    apply private_write hs
    intro r hr hlocal
    have hd := (hs.env value r hr).1 hlocal
    have hacc := h.accessed value hd o (M.mem_uses.2 (by simp [hop, Op.operands]))
    simp only [hop] at hacc
    exact hacc.1 rfl
  | assign rhs lhs scalarRhs =>
    simp only [effect, hop]
    apply private_write hs
    intro r hr
    cases hr
  | terminator operands =>
    simp only [effect, hop]
    have he : Private M a (s.escape (operands.map s.env)) := by
      apply hs.escape
      intro x hx r hr hlocal
      obtain ⟨v, hv, rfl⟩ := mem_map.1 hx
      have hd := (hs.env v r hr).1 hlocal
      have hacc := h.accessed v hd o (M.mem_uses.2 (by rw [hop]; exact hv))
      simp only [hop] at hacc
    exact ⟨he.env, he.mem, he.escaped⟩
  | other operands results blocks => simp [driven, hop] at ho

/-- The operands of an operation whose behaviour is open let no private memory escape. -/
theorem private_start (h : M.NonEscaping a acc) (hs : Private M a s) (ho : M.driven o = true) :
    Private M a (s.escape ((M.op o).operands.map s.env)) := by
  apply hs.escape
  intro x hx r hr hlocal
  obtain ⟨v, hv, rfl⟩ := mem_map.1 hx
  exact not_derived_operand h hv ho ((hs.env v r hr).1 hlocal)

omit [DecidableEq ι] in
theorem private_enter (hs : Private M a s) {b : BlockId} {args : List (Val ι D)}
    {m : Root ι → D → Val ι D}
    (hvals : ∀ x ∈ args, s.Known x) (hm : ∀ r, s.escaped r = true → ∀ d, s.Known (m r d)) :
    Private M a ((s.overlay m).bind (M.args b) args) := by
  apply (hs.overlay hm).bind
  intro v hv x hx r hr
  rw [iff_false_right (not_derived_args hv)]
  exact hs.not_local (hvals x hx) hr

/-- **A run keeps private memory private.** -/
theorem exec_private (h : M.NonEscaping a acc) {c : Code ι D}
    {log : Log ι D} {res : Option (State ι D)}
    (he : Exec M R L c s log res) : Private M a s → ∀ s', res = some s' → Private M a s' := by
  induction he with
  | stop => intro _ s' hs'; cases hs'
  | simple hop =>
    intro hs s' hs'
    obtain rfl := Option.some.inj hs'
    exact private_effect h hs hop
  | start hop _ ih => exact fun hs => ih (private_start h hs hop)
  | nil =>
    intro hs s' hs'
    obtain rfl := Option.some.inj hs'
    exact hs
  | cons _ _ ih₁ ih₂ => exact fun hs => ih₂ (ih₁ hs _ rfl)
  | halt _ _ => intro _ s' hs'; cases hs'
  | finish hop hstep hvals hmem =>
    intro hs s' hs'
    obtain rfl := Option.some.inj hs'
    apply (hs.overlay hmem).bind
    intro v hv x hx r hr
    rw [iff_false_right (not_derived_result h hv (Or.inl hop))]
    exact hs.not_local (hvals x hx) hr
  | enter hstep hb hvals hmem _ _ ih₁ ih₂ =>
    exact fun hs => ih₂ (ih₁ (private_enter hs hvals hmem) _ rfl)
  | enterHalt _ _ _ _ _ _ => intro _ s' hs'; cases hs'

end Ir

end SinkStores
