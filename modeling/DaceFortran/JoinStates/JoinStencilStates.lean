/-
# Joining states over symbol assignments

`_movable_past` and the rewriting of `join_stencil_states` (`join_stencil_states.py`, and the same
in `substitute/fuse_stencils.py`): the assignments of an edge move past its destination state onto
the edges out of it. A region is a graph of blocks; its run goes from block to block with the values
of the symbols and the data.  The values are put into the nodes and memlets of a state, not into the
descriptors of the data that it uses.
-/
import DaceFortran.Lib.AssocLists

open List

namespace JoinStates

variable {Block Sym Val Data : Type}

/-- The values of the symbols. -/
abbrev Env (Sym Val : Type) := Sym → Val

/-- An expression over symbols and data.  `reads` are its free symbols; `readsData`: it names an
array. -/
structure SymExpr (Sym Val Data : Type) where
  eval : Env Sym Val → Data → Val
  reads : List Sym
  readsData : Bool
  congr : ∀ σ σ' d d', (∀ s ∈ reads, σ s = σ' s) → (readsData = true → d = d') →
    eval σ d = eval σ' d'

/-- The assignments of an edge, by the symbol assigned. -/
abbrev Assignments (Sym Val Data : Type) := List (Sym × SymExpr Sym Val Data)

/-- An interstate edge. `key` tells edges apart; `unconditional` is the condition `1`. -/
structure Edge (Block Sym Val Data : Type) where
  key : ℕ
  src : Block
  dst : Block
  unconditional : Bool
  condition : Env Sym Val → Data → Bool
  assignments : Assignments Sym Val Data
  always : unconditional = true → ∀ σ d, condition σ d = true

/-- A state: what it does with the symbols of its nodes and memlets and, apart from them, with those
of the descriptors of the data that it uses (`shapes`: the symbols of their shapes, strides and
offsets). -/
structure StateBlock (Sym Val Data : Type) where
  run : Env Sym Val → Env Sym Val → Data → Data
  shapes : List Sym
  congr : ∀ σ τ τ' d, (∀ s ∈ shapes, τ s = τ' s) → run σ τ d = run σ τ' d

/-- What a block does: a state changes the data and no symbol; a loop, a conditional or another
region may change both, or not come back (a break, a return, a loop without end). -/
inductive Behaviour (Sym Val Data : Type) where
  | state (f : StateBlock Sym Val Data)
  | region (run : Env Sym Val → Data → Option (Env Sym Val × Data))

/-- The symbols of the descriptors that a block uses, for a state. -/
def Behaviour.shapes : Behaviour Sym Val Data → List Sym
  | .state f => f.shapes
  | .region _ => []

def Behaviour.isState : Behaviour Sym Val Data → Bool
  | .state _ => true
  | .region _ => false

/-- A region graph. -/
structure Graph (Block Sym Val Data : Type) where
  start : Block
  behaviour : Block → Behaviour Sym Val Data
  edges : List (Edge Block Sym Val Data)
  keys : (edges.map Edge.key).Nodup

variable [DecidableEq Sym]

/-- The assignments of an edge made at once: every value is read before any symbol is set. -/
def assign (l : Assignments Sym Val Data) (σ : Env Sym Val) (d : Data) : Env Sym Val :=
  fun s => match l.lookup s with
    | some e => e.eval σ d
    | none => σ s

/-- `replace_dict` on a condition or a value: the values stand for the symbols. -/
def replaceIn {α : Type} (values : Assignments Sym Val Data) (f : Env Sym Val → Data → α) :
    Env Sym Val → Data → α :=
  fun σ d => f (assign values σ d) d

/-- The expression with the values in place of the symbols. -/
def SymExpr.replace (values : Assignments Sym Val Data) (e : SymExpr Sym Val Data) :
    SymExpr Sym Val Data where
  eval := replaceIn values e.eval
  reads := e.reads ++ values.flatMap fun v => v.2.reads
  readsData := e.readsData || values.any fun v => v.2.readsData
  congr := by
    intro σ σ' d d' hreads hdata
    refine e.congr _ _ _ _ (fun s hs => ?_) fun h => hdata (by simp [h])
    unfold assign
    cases hl : values.lookup s with
    | none => exact hreads s (List.mem_append_left _ hs)
    | some v =>
      have hmem : (s, v) ∈ values := by
        obtain ⟨l, r, rfl, -⟩ := List.lookup_eq_some_iff.mp hl
        simp
      refine v.congr _ _ _ _ (fun t ht => hreads t
        (List.mem_append_right _ (List.mem_flatMap.mpr ⟨_, hmem, ht⟩))) ?_
      intro h
      refine hdata ?_
      simp only [Bool.or_eq_true, List.any_eq_true]
      exact .inr ⟨_, hmem, h⟩

/-- `replace_dict` of a state: the values stand for the symbols in nodes and memlets; the
descriptors stay. -/
def StateBlock.replace (values : Assignments Sym Val Data) (f : StateBlock Sym Val Data) :
    StateBlock Sym Val Data where
  run σ τ d := f.run (assign values σ d) τ d
  shapes := f.shapes
  congr σ τ τ' d h := f.congr (assign values σ d) τ τ' d h

/-- `{**values, **assignments}`. -/
def merge (values assignments : Assignments Sym Val Data) : Assignments Sym Val Data :=
  values.map (fun v => (v.1, (assignments.lookup v.1).getD v.2)) ++
    assignments.filter fun a => (values.lookup a.1).isNone

variable [DecidableEq Block]

namespace Graph

/-- The edges out of a block, in order. -/
def outEdges (g : Graph Block Sym Val Data) (b : Block) : List (Edge Block Sym Val Data) :=
  g.edges.filter fun e => decide (e.src = b)

/-- The edges into a block. -/
def inEdges (g : Graph Block Sym Val Data) (b : Block) : List (Edge Block Sym Val Data) :=
  g.edges.filter fun e => decide (e.dst = b)

/-- `_movable_past`. -/
def movablePast (g : Graph Block Sym Val Data) (edge : Edge Block Sym Val Data) : Bool :=
  !edge.assignments.isEmpty && edge.unconditional && (g.behaviour edge.dst).isState &&
    decide ((g.inEdges edge.dst).length = 1) && !(g.outEdges edge.dst).isEmpty &&
    edge.assignments.all fun v => !v.2.readsData &&
      v.2.reads.all fun s => !(edge.assignments.map (·.1)).contains s

end Graph

/-- An edge out of the destination state: its condition and its values with the symbols replaced,
and the assignments moved onto it. -/
def Edge.takeOver (values : Assignments Sym Val Data) (e : Edge Block Sym Val Data) :
    Edge Block Sym Val Data where
  key := e.key
  src := e.src
  dst := e.dst
  unconditional := e.unconditional
  condition := replaceIn values e.condition
  assignments := merge values (e.assignments.map fun a => (a.1, a.2.replace values))
  always := fun h _ d => e.always h _ d

/-- One edge of the graph after the move. -/
def Edge.moved (edge e : Edge Block Sym Val Data) : Edge Block Sym Val Data :=
  if e.key = edge.key then { e with assignments := [] }
  else if e.src = edge.dst then e.takeOver edge.assignments
  else e

omit [DecidableEq Sym] [DecidableEq Block] in
theorem map_key {f : Edge Block Sym Val Data → Edge Block Sym Val Data}
    (hf : ∀ e, (f e).key = e.key)
    (es : List (Edge Block Sym Val Data)) : (es.map f).map Edge.key = es.map Edge.key := by
  rw [map_map]
  exact map_congr_left fun e _ => hf e

theorem Edge.key_moved (edge e : Edge Block Sym Val Data) : (edge.moved e).key = e.key := by
  unfold Edge.moved
  split_ifs <;> rfl

/-- The rewriting of `join_stencil_states`: the state with the values in place of the symbols, the
edges out of it with the assignments, the edge without. -/
def Graph.move (g : Graph Block Sym Val Data) (edge : Edge Block Sym Val Data) :
    Graph Block Sym Val Data where
  start := g.start
  behaviour b :=
    if b = edge.dst then
      match g.behaviour b with
      | .state f => .state (f.replace edge.assignments)
      | .region run => .region run
    else g.behaviour b
  edges := g.edges.map edge.moved
  keys := by
    rw [map_key edge.key_moved]
    exact g.keys

/-! ## Runs -/

/-- Where a run is: at a block, or out of the region (`none`). -/
structure Config (Block Sym Val Data : Type) where
  block : Option Block
  env : Env Sym Val
  data : Data

/-- A block that is run. -/
def Behaviour.run (σ : Env Sym Val) (d : Data) : Behaviour Sym Val Data →
    Option (Env Sym Val × Data)
  | .state f => some (σ, f.run σ σ d)
  | .region f => f σ d

/-- The first edge out of a block whose condition holds. -/
def Graph.next (g : Graph Block Sym Val Data) (b : Block) (σ : Env Sym Val) (d : Data) :
    Option (Edge Block Sym Val Data) :=
  (g.outEdges b).find? fun e => e.condition σ d

/-- The way out of a block: over an edge, or out of the region. -/
def Graph.leave (g : Graph Block Sym Val Data) (b : Block) (σ : Env Sym Val) (d : Data) :
    Config Block Sym Val Data :=
  match g.next b σ d with
  | some e => ⟨some e.dst, assign e.assignments σ d, d⟩
  | none => ⟨none, σ, d⟩

/-- One step: the block is run and left. -/
def Graph.step (g : Graph Block Sym Val Data) (c : Config Block Sym Val Data) :
    Option (Config Block Sym Val Data) :=
  c.block.bind fun b => ((g.behaviour b).run c.env c.data).map fun r => g.leave b r.1 r.2

/-- The run after `n` steps. -/
def Graph.run (g : Graph Block Sym Val Data) : ℕ → Config Block Sym Val Data →
    Option (Config Block Sym Val Data)
  | 0, c => some c
  | n + 1, c => (g.run n c).bind g.step

/-- The region entered. -/
def Graph.enter (g : Graph Block Sym Val Data) (σ : Env Sym Val) (d : Data) :
    Config Block Sym Val Data :=
  ⟨some g.start, σ, d⟩

/-- What is read where a run is: at the destination state of the edge the symbols stand for their
values, those of its descriptors for themselves; everywhere else, and behind the region, every
symbol is the same. -/
structure SameReads (g : Graph Block Sym Val Data) (edge : Edge Block Sym Val Data)
    (c c' : Config Block Sym Val Data) :
    Prop where
  block : c'.block = c.block
  data : c'.data = c.data
  env : if c.block = some edge.dst then c.env = assign edge.assignments c'.env c'.data
    else c.env = c'.env
  shapes : c.block = some edge.dst → ∀ s ∈ (g.behaviour edge.dst).shapes, c'.env s = c.env s

/-- **The move preserves an execution**: after every number of steps both runs are at the same place
and read the same. -/
def Preserves (g : Graph Block Sym Val Data) (edge : Edge Block Sym Val Data) (σ : Env Sym Val)
    (d : Data) : Prop :=
  ∀ n, match g.run n (g.enter σ d), (g.move edge).run n ((g.move edge).enter σ d) with
    | some c, some c' => SameReads g edge c c'
    | none, none => True
    | _, _ => False

end JoinStates

/-
# When the move preserves an execution

At the destination state the values of the assignments and the assigned symbols read the same, but
for the descriptors, and every edge out of it assigns what was moved.  Two ways in and out have no
such edge: the region may start at the state, and it may be left there when no condition holds.
-/

namespace JoinStates

variable {Block Sym Val Data : Type} [DecidableEq Sym]

/-! ## Assignments -/

theorem lookup_map_values {α β : Type} (f : Sym → α → β) (l : List (Sym × α)) (s : Sym) :
    (l.map fun a => (a.1, f a.1 a.2)).lookup s = (l.lookup s).map (f s) := by
  induction l with
  | nil => rfl
  | cons a l ih =>
    obtain ⟨t, x⟩ := a
    rw [map_cons, lookup_cons, lookup_cons]
    by_cases h : s = t
    · subst h
      simp
    · rw [beq_false_of_ne h]
      exact ih

theorem assign_nil (σ : Env Sym Val) (d : Data) : assign [] σ d = σ := rfl

/-- The assignments of the edge win over those moved onto it. -/
theorem lookup_merge (values l : Assignments Sym Val Data) (s : Sym) :
    (merge values l).lookup s = (l.lookup s).or (values.lookup s) := by
  unfold merge
  rw [lookup_append, lookup_map_values (fun t v => (l.lookup t).getD v),
    AssocLists.lookup_filter fun t => (values.lookup t).isNone]
  cases values.lookup s <;> cases l.lookup s <;> rfl

/-- What an edge out of the state assigns once it has taken the values over. -/
theorem assign_merge (values l : Assignments Sym Val Data) (σ : Env Sym Val) (d : Data) :
    assign (merge values (l.map fun a => (a.1, a.2.replace values))) σ d =
      assign l (assign values σ d) d := by
  funext s
  show (match (merge values (l.map fun a => (a.1, a.2.replace values))).lookup s with
    | some e => e.eval σ d
    | none => σ s) = match l.lookup s with
    | some e => e.eval (assign values σ d) d
    | none => assign values σ d s
  rw [lookup_merge, lookup_map_values fun _ => SymExpr.replace values]
  cases l.lookup s with
  | some e => rfl
  | none =>
    unfold assign
    cases values.lookup s <;> rfl

/-- Values that read neither data nor an assigned symbol. -/
def Steady (values : Assignments Sym Val Data) : Prop :=
  ∀ v ∈ values, v.2.readsData = false ∧ ∀ s ∈ v.2.reads, s ∉ values.map (·.1)

variable {values : Assignments Sym Val Data}

theorem assign_of_notMem {s : Sym} (h : s ∉ values.map (·.1)) (σ : Env Sym Val)
    (d : Data) : assign values σ d s = σ s := by
  unfold assign
  rw [AssocLists.lookup_eq_none.mpr h]

/-- Steady values are the same before and after the assignments, whatever the data. -/
theorem Steady.assign_assign (h : Steady values) (σ : Env Sym Val) (d d' : Data) :
    assign values (assign values σ d) d' = assign values σ d := by
  funext s
  show (match values.lookup s with
    | some e => e.eval (assign values σ d) d'
    | none => assign values σ d s) = assign values σ d s
  cases hl : values.lookup s with
  | none => rfl
  | some v =>
    obtain ⟨hdata, hreads⟩ := h (s, v) (AssocLists.mem_of_lookup hl)
    have hval : assign values σ d s = v.eval σ d := by
      unfold assign
      rw [hl]
    rw [hval]
    exact v.congr _ _ _ _ (fun t ht => assign_of_notMem (hreads t ht) σ d) fun hd => absurd hdata
      (by simpa using hd)

theorem Steady.assign_data (h : Steady values) (σ : Env Sym Val) (d d' : Data) :
    assign values σ d = assign values σ d' := by
  funext s
  unfold assign
  cases hl : values.lookup s with
  | none => rfl
  | some v =>
    obtain ⟨hdata, -⟩ := h (s, v) (AssocLists.mem_of_lookup hl)
    exact v.congr _ _ _ _ (fun _ _ => rfl) fun hd => absurd hdata (by simpa using hd)

/-! ## The graph -/

variable [DecidableEq Block]

/-- What `join_stencil_states` has checked when it moves the assignments of an edge. -/
structure Joined (g : Graph Block Sym Val Data) (edge : Edge Block Sym Val Data) : Prop where
  mem : edge ∈ g.edges
  source : ∃ f, g.behaviour edge.src = .state f
  only : (g.outEdges edge.src).length = 1
  movable : g.movablePast edge = true

section Joined

variable {g : Graph Block Sym Val Data} {edge : Edge Block Sym Val Data} (h : Joined g edge)
include h

variable {e : Edge Block Sym Val Data}

theorem Joined.eq_of_key (he : e ∈ g.edges) (hkey : e.key = edge.key) : e = edge :=
  inj_on_of_nodup_map g.keys he h.mem hkey

theorem Joined.movable_spec :
    edge.unconditional = true ∧ (∃ f, g.behaviour edge.dst = .state f) ∧
      (g.inEdges edge.dst).length = 1 ∧
      Steady edge.assignments := by
  have hmov := h.movable
  unfold Graph.movablePast at hmov
  simp only [Bool.and_eq_true, decide_eq_true_eq] at hmov
  obtain ⟨⟨⟨⟨⟨-, huncond⟩, hstate⟩, hin⟩, -⟩, hvalues⟩ := hmov
  refine ⟨huncond, ?_, hin, fun v hv => ?_⟩
  · cases hb : g.behaviour edge.dst with
    | state f => exact ⟨f, rfl⟩
    | region f => simp [hb, Behaviour.isState] at hstate
  · have := all_eq_true.mp hvalues v hv
    simpa using this

/-- The edge is the only one into its destination. -/
theorem Joined.eq_of_dst (he : e ∈ g.edges) (hdst : e.dst = edge.dst) : e = edge := by
  obtain ⟨x, hx⟩ := length_eq_one_iff.mp h.movable_spec.2.2.1
  have hmem : ∀ e' ∈ g.edges, e'.dst = edge.dst → e' = x := by
    intro e' he' hd
    have : e' ∈ g.inEdges edge.dst := mem_filter.mpr ⟨he', by simpa using hd⟩
    rwa [hx, mem_singleton] at this
  exact (hmem e he hdst).trans (hmem edge h.mem rfl).symm

/-- The edge is the only one out of its source, and always taken. -/
theorem Joined.next_src (σ : Env Sym Val) (d : Data) : g.next edge.src σ d = some edge := by
  obtain ⟨x, hx⟩ := length_eq_one_iff.mp h.only
  have hedge : edge ∈ g.outEdges edge.src := mem_filter.mpr ⟨h.mem, by simp⟩
  rw [hx, mem_singleton] at hedge
  unfold Graph.next
  rw [hx, ← hedge]
  simp [edge.always h.movable_spec.1]

variable {b : Block}

omit h [DecidableEq Sym] in
theorem mem_of_next {σ : Env Sym Val} {d : Data} (he : g.next b σ d = some e) :
    e ∈ g.edges ∧ e.src = b := by
  have hmem := mem_filter.mp (mem_of_find?_eq_some he)
  exact ⟨hmem.1, of_decide_eq_true hmem.2⟩

omit h in
theorem Edge.src_moved (e : Edge Block Sym Val Data) : (edge.moved e).src = e.src := by
  unfold Edge.moved
  split_ifs <;> rfl

omit h in
theorem outEdges_move (b : Block) : (g.move edge).outEdges b = (g.outEdges b).map edge.moved := by
  unfold Graph.outEdges Graph.move
  rw [filter_map]
  congr 1
  refine filter_congr fun e _ => ?_
  simp [Edge.src_moved]

omit h [DecidableEq Sym] [DecidableEq Block] in
theorem find?_eq_of_forall {α : Type} {p q : α → Bool} {l : List α} (hpq : ∀ a ∈ l, p a = q a) :
    l.find? p = l.find? q := by
  induction l with
  | nil => rfl
  | cons a l ih =>
    rw [List.find?_cons, List.find?_cons, hpq a mem_cons_self,
      ih fun b hb => hpq b (mem_cons_of_mem a hb)]

/-- The edge taken is the same, where the conditions read the same. -/
theorem Joined.next_move (b : Block) (σ σ' : Env Sym Val) (d : Data)
    (henv : if b = edge.dst then σ = assign edge.assignments σ' d else σ = σ') :
    (g.move edge).next b σ' d = (g.next b σ d).map edge.moved := by
  unfold Graph.next
  rw [outEdges_move, List.find?_map]
  congr 1
  refine find?_eq_of_forall fun e he => ?_
  obtain ⟨hmem, hsrc⟩ := mem_filter.mp he
  have hsrc : e.src = b := of_decide_eq_true hsrc
  show (edge.moved e).condition σ' d = e.condition σ d
  unfold Edge.moved
  split_ifs with hkey hdst
  · rw [h.eq_of_key hmem hkey]
    exact (edge.always h.movable_spec.1 _ _).trans (edge.always h.movable_spec.1 _ _).symm
  · rw [hsrc] at hdst
    rw [if_pos hdst] at henv
    rw [henv]
    rfl
  · rw [hsrc] at hdst
    rw [if_neg hdst] at henv
    rw [henv]

/-! ## One step -/

/-- The region is left behind the block. -/
def LeavesRegion (g : Graph Block Sym Val Data) (c : Config Block Sym Val Data) : Prop :=
  ∃ c₁, g.step c = some c₁ ∧ c₁.block = none

omit h in
theorem step_state {f : StateBlock Sym Val Data} (hb : g.behaviour b = .state f)
    (σ : Env Sym Val) (d : Data) :
    g.step ⟨some b, σ, d⟩ = some (g.leave b σ (f.run σ σ d)) := by
  simp [Graph.step, hb, Behaviour.run]

omit h in
theorem Edge.dst_moved (e : Edge Block Sym Val Data) : (edge.moved e).dst = e.dst := by
  unfold Edge.moved
  split_ifs <;> rfl

/-- Only the source leads to the destination. -/
theorem Joined.eq_src_of_leave {σ : Env Sym Val} {d : Data}
    (hdst : (g.leave b σ d).block = some edge.dst) :
    b = edge.src := by
  unfold Graph.leave at hdst
  cases hn : g.next b σ d with
  | none =>
    rw [hn] at hdst
    cases hdst
  | some e =>
    rw [hn] at hdst
    obtain ⟨hmem, hsrc⟩ := mem_of_next hn
    rw [← hsrc, h.eq_of_dst hmem (Option.some.inj hdst)]

/-- The way out of a block: the edges of the destination state assign what was moved, and only the
edge moved from lacks its assignments. -/
theorem Joined.leave_move (b : Block) {σ σ' : Env Sym Val} {d : Data}
    (henv : if b = edge.dst then σ = assign edge.assignments σ' d else σ = σ')
    (hleave : (g.leave b σ d).block = none → σ' = σ)
    (hshapes : (g.leave b σ d).block = some edge.dst →
      ∀ s ∈ (g.behaviour edge.dst).shapes, (g.leave b σ d).env s = σ' s) :
    SameReads g edge (g.leave b σ d) ((g.move edge).leave b σ' d) ∧
      ((g.leave b σ d).block = some edge.dst → b = edge.src ∧
        ((g.move edge).leave b σ' d).env = σ') := by
  have hnext := h.next_move b σ σ' d henv
  have hsteady := h.movable_spec.2.2.2
  unfold Graph.leave at hleave hshapes ⊢
  rw [hnext]
  cases hn : g.next b σ d with
  | none =>
    rw [hn] at hleave
    refine ⟨⟨rfl, rfl, ?_, fun hd => by cases hd⟩, fun hd => by cases hd⟩
    show if none = some edge.dst then _ else σ = σ'
    rw [if_neg (by simp)]
    exact (hleave rfl).symm
  | some e =>
    obtain ⟨hmem, hsrc⟩ := mem_of_next hn
    by_cases hkey : e.key = edge.key
    · -- the edge moved from: its assignments are made before its destination is left
      obtain rfl := h.eq_of_key hmem hkey
      have hmoved : (e.moved e).assignments = [] := by
        unfold Edge.moved
        rw [if_pos rfl]
      have henv' : assign (e.moved e).assignments σ' d = σ' := by rw [hmoved, assign_nil]
      refine ⟨⟨congrArg some (Edge.dst_moved e), rfl, ?_, fun _ s hs => ?_⟩,
        fun _ => ⟨hsrc.symm, henv'⟩⟩
      · show if some e.dst = some e.dst then assign e.assignments σ d =
          assign e.assignments (assign (e.moved e).assignments σ' d) d else _
        rw [if_pos rfl, hmoved, assign_nil]
        split_ifs at henv
        · rw [henv]
          exact hsteady.assign_assign _ _ _
        · rw [henv]
      · rw [hn] at hshapes
        show assign (e.moved e).assignments σ' d s = assign e.assignments σ d s
        rw [henv']
        exact (hshapes rfl s hs).symm
    · have hne : e.dst ≠ edge.dst := fun hdst => hkey (congrArg Edge.key (h.eq_of_dst hmem hdst))
      refine ⟨⟨congrArg some (Edge.dst_moved e), rfl, ?_,
        fun hd => absurd (Option.some.inj hd) hne⟩,
        fun hd => absurd (Option.some.inj hd) hne⟩
      show if some e.dst = some edge.dst then _ else assign e.assignments σ d =
        assign (edge.moved e).assignments σ' d
      rw [if_neg (by simpa using hne)]
      unfold Edge.moved
      rw [if_neg hkey, hsrc]
      split_ifs at henv ⊢
      · show assign e.assignments σ d = assign (merge edge.assignments _) σ' d
        rw [assign_merge, ← henv]
      · rw [henv]

/-- **One step of both runs.**  Where the region is left from the destination state, the symbols
must agree before, and where the state is reached, those of its descriptors; it is reached over the
edge, with the symbols of its source. -/
theorem Joined.step_sameReads {c c' : Config Block Sym Val Data} (hs : SameReads g edge c c')
    (hleave : c.block = some edge.dst → LeavesRegion g c → c'.env = c.env)
    (hshapes : c.block = some edge.src → ∀ c₁, g.step c = some c₁ →
      ∀ s ∈ (g.behaviour edge.dst).shapes, c₁.env s = c'.env s) :
    (g.step c = none ∧ (g.move edge).step c' = none) ∨
      ∃ c₁ c₁', g.step c = some c₁ ∧ (g.move edge).step c' = some c₁' ∧ SameReads g edge c₁ c₁' ∧
        (c₁.block = some edge.dst → c.block = some edge.src ∧ c₁'.env = c'.env) := by
  obtain ⟨block, σ, d⟩ := c
  obtain ⟨block', σ', d'⟩ := c'
  obtain ⟨rfl, rfl, henv, hsame⟩ := hs
  simp only at henv hleave hsame hshapes
  obtain ⟨-, ⟨f, hf⟩, -, hsteady⟩ := h.movable_spec
  cases block' with
  | none => exact .inl ⟨rfl, rfl⟩
  | some b =>
    by_cases hb : b = edge.dst
    · right
      subst hb
      rw [if_pos rfl] at henv
      have hf' : (g.move edge).behaviour edge.dst = .state (f.replace edge.assignments) := by
        show (if edge.dst = edge.dst then _ else _) = _
        rw [if_pos rfl, hf]
      have hd : (f.replace edge.assignments).run σ' σ' d' = f.run σ σ d' := by
        show f.run (assign edge.assignments σ' d') σ' d' = f.run σ σ d'
        rw [← henv]
        refine f.congr σ σ' σ d' fun s hs => hsame rfl s ?_
        rw [hf]
        exact hs
      have hstep := step_state hf σ d'
      have hmoved := henv.trans (hsteady.assign_data σ' d' (f.run σ σ d'))
      have hway := h.leave_move edge.dst (by rwa [if_pos rfl])
        (fun hnone => hleave rfl ⟨_, hstep, hnone⟩)
        fun hdst => hshapes (congrArg some (h.eq_src_of_leave hdst)) _ hstep
      refine ⟨_, _, hstep, (step_state hf' σ' d').trans (by rw [hd]), hway.1, fun hdst => ?_⟩
      exact ⟨congrArg some (hway.2 hdst).1, (hway.2 hdst).2⟩
    · rw [if_neg (by simpa using hb)] at henv
      subst henv
      have hbeh : (g.move edge).behaviour b = g.behaviour b := if_neg hb
      cases hrun : (g.behaviour b).run σ d' with
      | none =>
        left
        simp [Graph.step, hbeh, hrun]
      | some r =>
        right
        have hstep : g.step ⟨some b, σ, d'⟩ = some (g.leave b r.1 r.2) := by simp [Graph.step, hrun]
        -- the source is a state: its symbols are those before it
        have hsymbols : b = edge.src → r.1 = σ := by
          intro hsrc
          obtain ⟨f', hf'⟩ := h.source
          rw [hsrc, hf'] at hrun
          exact (congrArg Prod.fst (Option.some.inj hrun)).symm
        have hdescriptors : (g.leave b r.1 r.2).block = some edge.dst →
            ∀ s ∈ (g.behaviour edge.dst).shapes, (g.leave b r.1 r.2).env s = r.1 s :=
              fun hdst s hs =>
          (hshapes (congrArg some (h.eq_src_of_leave hdst)) _ hstep s hs).trans
            (congrFun (hsymbols (h.eq_src_of_leave hdst)) s).symm
        have hway := h.leave_move b (by rw [if_neg hb]) (fun _ => rfl) hdescriptors
        refine ⟨g.leave b r.1 r.2, (g.move edge).leave b r.1 r.2,
          hstep, by simp [Graph.step, hbeh, hrun], hway.1,
          fun hdst => ?_⟩
        obtain ⟨hsrc, henv⟩ := hway.2 hdst
        exact ⟨congrArg some hsrc, henv.trans (hsymbols hsrc)⟩

/-- From its source the edge is always taken. -/
theorem Joined.not_leavesRegion {c : Config Block Sym Val Data} (hc : c.block = some edge.src) :
    ¬LeavesRegion g c := by
  rintro ⟨c₁, hstep, hnone⟩
  obtain ⟨f, hf⟩ := h.source
  obtain ⟨block, σ, d⟩ := c
  obtain rfl : block = some edge.src := hc
  rw [step_state hf] at hstep
  obtain rfl := Option.some.inj hstep
  unfold Graph.leave at hnone
  rw [h.next_src] at hnone
  cases hnone

end Joined

/-! ## Executions -/

/-- **The condition on an execution**: a region that starts at the destination state starts with the
values, one that is left from it had them before the edge, and so did the symbols of the state's
descriptors. -/
structure HeldBefore (g : Graph Block Sym Val Data) (edge : Edge Block Sym Val Data)
    (σ : Env Sym Val) (d : Data) :
    Prop where
  starts : g.start = edge.dst → assign edge.assignments σ d = σ
  leaves : ∀ n c c₁, g.run n (g.enter σ d) = some c → c.block = some edge.src → g.step c = some c₁ →
    LeavesRegion g c₁ → c₁.env = c.env
  shapes : ∀ n c c₁, g.run n (g.enter σ d) = some c → c.block = some edge.src → g.step c = some c₁ →
    ∀ s ∈ (g.behaviour edge.dst).shapes, c₁.env s = c.env s

section Executions

variable {g : Graph Block Sym Val Data} {edge : Edge Block Sym Val Data}
    {σ : Env Sym Val} {d : Data}
variable {c c' c₁ c₁' : Config Block Sym Val Data}

/-- At the source, what the descriptors of the destination read is the same in both runs, also where
they are one state. -/
theorem SameReads.env_src (hs : SameReads g edge c c') (hsrc : c.block = some edge.src) {s : Sym}
    (hmem : s ∈ (g.behaviour edge.dst).shapes) : c'.env s = c.env s := by
  by_cases hself : edge.src = edge.dst
  · exact hs.shapes (hself ▸ hsrc) s hmem
  · have henv := hs.env
    rw [if_neg (by rw [hsrc]; simpa using hself)] at henv
    rw [henv]

/-- Every step keeps what is read, and the symbols where the region is left from the state. -/
theorem Joined.run_sameReads (h : Joined g edge) (hheld : HeldBefore g edge σ d) (n : ℕ) :
    (g.run n (g.enter σ d) = none ∧ (g.move edge).run n ((g.move edge).enter σ d) = none) ∨
      ∃ c c', g.run n (g.enter σ d) = some c ∧
        (g.move edge).run n ((g.move edge).enter σ d) = some c' ∧
        SameReads g edge c c' ∧ (c.block = some edge.dst → LeavesRegion g c → c'.env = c.env) := by
  induction n with
  | zero =>
    refine .inr ⟨_, _, rfl, rfl, ⟨rfl, rfl, ?_, fun _ _ _ => rfl⟩, fun _ _ => rfl⟩
    show if some g.start = some edge.dst then σ = assign edge.assignments σ d else σ = σ
    split_ifs with hstart
    · exact (hheld.starts (Option.some.inj hstart)).symm
    · rfl
  | succ n ih =>
    show ((g.run n _).bind g.step = none ∧ ((g.move edge).run n _).bind (g.move edge).step = none) ∨
      ∃ c c', (g.run n _).bind g.step = some c ∧
        ((g.move edge).run n _).bind (g.move edge).step = some c' ∧ _
    rcases ih with ⟨hn, hn'⟩ | ⟨c, c', hc, hc', hs, hleave⟩
    · rw [hn, hn']
      exact .inl ⟨rfl, rfl⟩
    · rw [hc, hc', Option.bind_some, Option.bind_some]
      have hshapes : c.block = some edge.src → ∀ c₁, g.step c = some c₁ →
          ∀ s ∈ (g.behaviour edge.dst).shapes, c₁.env s = c'.env s := fun hsrc c₁ hstep s hmem =>
        (hheld.shapes n c c₁ hc hsrc hstep s hmem).trans (hs.env_src hsrc hmem).symm
      rcases h.step_sameReads hs hleave hshapes with hnone | ⟨c₁, c₁', hc₁, hc₁', hs₁, hway⟩
      · exact .inl hnone
      · refine .inr ⟨c₁, c₁', hc₁, hc₁', hs₁, fun hdst hl => ?_⟩
        obtain ⟨hsrc, henv⟩ := hway hdst
        have hheld' := hheld.leaves n c c₁ hc hsrc hc₁ hl
        by_cases hself : edge.src = edge.dst
        · exact absurd hl (h.not_leavesRegion (hself ▸ hdst))
        · have := hs.env
          rw [if_neg (by rw [hsrc]; simpa using hself)] at this
          exact henv.trans (this.symm.trans hheld'.symm)

/-- A state that the region is left from has changed no symbol. -/
theorem env_of_leavesRegion {b : Block} {f : StateBlock Sym Val Data}
    (hb : g.behaviour b = .state f)
    (hc : c.block = some b) (hstep : g.step c = some c₁) (hnone : c₁.block = none) :
    c₁.env = c.env := by
  obtain ⟨block, σ, d⟩ := c
  obtain rfl : block = some b := hc
  rw [step_state hb] at hstep
  obtain rfl := Option.some.inj hstep
  unfold Graph.leave at hnone ⊢
  cases hn : g.next b σ (f.run σ σ d) with
  | none => rfl
  | some e => simp [hn] at hnone

/-- The edge moved from sets no symbol. -/
theorem Joined.env_of_move_src (h : Joined g edge) (hsrc : c'.block = some edge.src)
    (hstep : (g.move edge).step c' = some c₁') : c₁'.env = c'.env := by
  have hbehaviour : ∃ f', (g.move edge).behaviour edge.src = .state f' := by
    obtain ⟨f, hf⟩ := h.source
    show ∃ f', (if edge.src = edge.dst then _ else _) = _
    split_ifs
    · rw [hf]
      exact ⟨_, rfl⟩
    · exact ⟨f, hf⟩
  obtain ⟨f', hf'⟩ := hbehaviour
  obtain ⟨block, σ, d⟩ := c'
  obtain rfl : block = some edge.src := hsrc
  rw [step_state hf'] at hstep
  obtain rfl := Option.some.inj hstep
  unfold Graph.leave
  cases hn : (g.move edge).next edge.src σ (f'.run σ σ d) with
  | none => rfl
  | some e =>
    obtain ⟨hmem, hesrc⟩ := mem_of_next hn
    obtain ⟨e', he', rfl⟩ := mem_map.mp hmem
    -- the edge is the only one out of its source
    obtain ⟨x, hx⟩ := length_eq_one_iff.mp h.only
    have hout : ∀ e ∈ g.edges, e.src = edge.src → e = x := fun e he hsrc =>
      mem_singleton.mp (hx ▸ mem_filter.mpr ⟨he, by simpa using hsrc⟩)
    rw [Edge.src_moved] at hesrc
    have hedge : e' = edge := (hout e' he' hesrc).trans (hout edge h.mem rfl).symm
    show assign (edge.moved e').assignments σ _ = σ
    rw [hedge]
    unfold Edge.moved
    rw [if_pos rfl, assign_nil]

theorem run_succ {n : ℕ} {c₀ : Config Block Sym Val Data} (hc : g.run n c₀ = some c)
    (hstep : g.step c = some c₁) :
    g.run (n + 1) c₀ = some c₁ := by
  show (g.run n c₀).bind g.step = some c₁
  rw [hc, Option.bind_some, hstep]

theorem Preserves.sameReads (hp : Preserves g edge σ d) {n : ℕ}
    (hc : g.run n (g.enter σ d) = some c) :
    ∃ c', (g.move edge).run n ((g.move edge).enter σ d) = some c' ∧ SameReads g edge c c' := by
  have hn := hp n
  rw [hc] at hn
  cases hc' : (g.move edge).run n ((g.move edge).enter σ d) with
  | none => simp [hc'] at hn
  | some c' => exact ⟨c', rfl, by simpa [hc'] using hn⟩

/-- **When the move preserves an execution**: where the assigned symbols held their values before,
on each way that has no edge to assign them. -/
theorem preserves_iff (h : Joined g edge) : Preserves g edge σ d ↔ HeldBefore g edge σ d := by
  constructor
  · intro hp
    have hshapes : ∀ n c c₁, g.run n (g.enter σ d) = some c → c.block = some edge.src →
      g.step c = some c₁ →
        ∀ s ∈ (g.behaviour edge.dst).shapes, c₁.env s = c.env s := by
      intro n c c₁ hc hsrc hstep s hmem
      obtain ⟨c', hc', hs⟩ := hp.sameReads hc
      obtain ⟨c₁', hc₁', hs₁⟩ := hp.sameReads (run_succ hc hstep)
      have hstep' : (g.move edge).step c' = some c₁' := by
        have : ((g.move edge).run n ((g.move edge).enter σ d)).bind (g.move edge).step =
          some c₁' := hc₁'
        rwa [hc', Option.bind_some] at this
      have hdst : c₁.block = some edge.dst := by
        obtain ⟨f, hf⟩ := h.source
        obtain ⟨block, σ₀, d₀⟩ := c
        obtain rfl : block = some edge.src := hsrc
        rw [step_state hf] at hstep
        obtain rfl := Option.some.inj hstep
        unfold Graph.leave
        rw [h.next_src]
      calc c₁.env s = c₁'.env s := (hs₁.shapes hdst s hmem).symm
        _ = c'.env s := by rw [h.env_of_move_src (hs.block.trans hsrc) hstep']
        _ = c.env s := hs.env_src hsrc hmem
    refine ⟨fun hstart => ?_, fun n c c₁ hc hsrc hstep hl => ?_, hshapes⟩
    · have := (hp 0).env
      rw [if_pos (show (g.enter σ d).block = some edge.dst from congrArg some hstart)] at this
      exact this.symm
    · -- three configurations of both runs: at the source, at the state, behind the region
      obtain ⟨c₂, hstep₂, hnone⟩ := id hl
      obtain ⟨c', hc', hs⟩ := hp.sameReads hc
      obtain ⟨c₂', hc₂', hs₂⟩ := hp.sameReads (run_succ (run_succ hc hstep) hstep₂)
      have hne : edge.src ≠ edge.dst ∧ c₁.block = some edge.dst := by
        obtain ⟨f, hf⟩ := h.source
        obtain ⟨block, σ₀, d₀⟩ := c
        obtain rfl : block = some edge.src := hsrc
        rw [step_state hf] at hstep
        obtain rfl := Option.some.inj hstep
        have hblock : (g.leave edge.src σ₀ (f.run σ₀ σ₀ d₀)).block = some edge.dst := by
          unfold Graph.leave
          rw [h.next_src]
        exact ⟨fun hself => h.not_leavesRegion (hself ▸ hblock) hl, hblock⟩
      have hsrc' : ¬c.block = some edge.dst := by
        rw [hsrc]
        simpa using hne.1
      have henv := hs.env
      rw [if_neg hsrc'] at henv
      have hsame : c.block = some edge.src → ∀ c₁, g.step c = some c₁ →
          ∀ s ∈ (g.behaviour edge.dst).shapes, c₁.env s = c'.env s := fun hsrc c₁ hstep s hmem =>
        (hshapes n c c₁ hc hsrc hstep s hmem).trans (hs.env_src hsrc hmem).symm
      rcases h.step_sameReads hs (fun hdst => absurd hdst hsrc') hsame with ⟨hno, -⟩ | ⟨w, w',
        hw, hw', hsw, hway⟩
      · simp [hno] at hstep
      · obtain rfl := Option.some.inj (hstep.symm.trans hw)
        obtain ⟨-, ⟨f, hf⟩, -, -⟩ := h.movable_spec
        have hf' : (g.move edge).behaviour edge.dst = .state (f.replace edge.assignments) := by
          show (if edge.dst = edge.dst then _ else _) = _
          rw [if_pos rfl, hf]
        have hw₂' : (g.move edge).step w' = some c₂' := by
          have : ((g.move edge).run (n + 1) ((g.move edge).enter σ d)).bind (g.move edge).step =
            some c₂' := hc₂'
          rwa [run_succ hc' hw', Option.bind_some] at this
        have hend := hs₂.env
        rw [if_neg (by simp [hnone])] at hend
        calc c₁.env = c₂.env := (env_of_leavesRegion hf hne.2 hstep₂ hnone).symm
          _ = c₂'.env := hend
          _ = w'.env := env_of_leavesRegion hf' (hsw.block.trans hne.2) hw₂' (hs₂.block.trans hnone)
          _ = c'.env := (hway hne.2).2
          _ = c.env := henv.symm
  · intro hheld n
    rcases h.run_sameReads hheld n with ⟨hn, hn'⟩ | ⟨c, c', hc, hc', hs, -⟩
    · rw [hn, hn']
      trivial
    · rw [hc, hc']
      exact hs

end Executions

/-! ## A way out without an edge -/

/-- The value 5. -/
def five : SymExpr Unit ℕ Unit where
  eval _ _ := 5
  reads := []
  readsData := false
  congr _ _ _ _ _ _ := rfl

/-- Three states in a row: `n = 5` is set before the second, which goes on to the third only if `n`
is 7. -/
def guardedExit : Graph (Fin 3) Unit ℕ Unit where
  start := 0
  behaviour _ := .state ⟨fun _ _ d => d, [], fun _ _ _ _ _ => rfl⟩
  edges := [⟨0, 0, 1, true, fun _ _ => true, [((), five)], fun _ _ _ => rfl⟩,
    ⟨1, 1, 2, false, fun σ _ => decide (σ () = 7), [], by simp⟩]
  keys := by decide

def setsFive : Edge (Fin 3) Unit ℕ Unit :=
  ⟨0, 0, 1, true, fun _ _ => true, [((), five)], fun _ _ _ => rfl⟩

theorem joined_guardedExit : Joined guardedExit setsFive where
  mem := mem_cons_self
  source := ⟨_, rfl⟩
  only := rfl
  movable := rfl

/-- Where `n` is 5 before, it is 5 all along. -/
theorem env_guardedExit (n : ℕ) {c : Config (Fin 3) Unit ℕ Unit}
    (hc : guardedExit.run n (guardedExit.enter (fun _ => 5) ()) = some c) : c.env () = 5 := by
  induction n generalizing c with
  | zero =>
    obtain rfl := Option.some.inj hc
    rfl
  | succ n ih =>
    obtain ⟨c₀, hc₀, hstep⟩ := Option.bind_eq_some_iff.mp hc
    have henv := ih hc₀
    obtain ⟨block, σ, d⟩ := c₀
    cases block with
    | none => cases hstep
    | some b =>
      rw [step_state rfl] at hstep
      obtain rfl := Option.some.inj hstep
      unfold Graph.leave
      cases hn : guardedExit.next b σ d with
      | none => exact henv
      | some e =>
        obtain ⟨hmem, -⟩ := mem_of_next hn
        simp only [guardedExit, mem_cons, not_mem_nil, or_false] at hmem
        rcases hmem with rfl | rfl
        · rfl
        · exact henv

theorem preserves_iff_guardedExit : Preserves guardedExit setsFive (fun _ => 5) () := by
  refine (preserves_iff joined_guardedExit).2 ⟨fun hstart => absurd hstart (by decide),
    fun n c c₁ hc _ hstep _ => ?_,
    fun n c c₁ _ _ _ s hs => absurd hs not_mem_nil⟩
  funext s
  rw [env_guardedExit n hc, env_guardedExit (n + 1) (run_succ hc hstep)]

/-- Behind the region `n` is 0, not 5. -/
theorem not_preserves_guardedExit : ¬Preserves guardedExit setsFive (fun _ => 0) () := by
  intro h
  have hs : SameReads guardedExit setsFive ⟨none, fun _ => 5, ()⟩ ⟨none, fun _ => 0, ()⟩ := h 2
  have henv := hs.env
  rw [if_neg (by simp)] at henv
  exact absurd (congrFun henv ()) (by decide)

end JoinStates
