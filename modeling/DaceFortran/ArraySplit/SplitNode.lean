/-
# One array per index

`split_array` replaces an array that every access subscripts with a literal in one
dimension by one array per index.  An access node of the array becomes one node per
index its edges use; what the node ordered is kept by empty edges.
-/
import Mathlib.Data.List.Dedup
import Mathlib.Data.Int.Notation
import DaceFortran.Lib.Collapse

open List

namespace ArraySplit

open Relation

/-! ## State graphs -/

/-- One dimension of a subset: a single literal index, or another range. -/
inductive Dim
  | index (k : ℤ)
  | range (text : String)
  deriving DecidableEq

/-- A memlet: `subset` is of the array `data`, `other` of the array at the other end of
a copy. -/
structure Memlet where
  data : String
  subset : List Dim
  other : Option (List Dim)
  deriving DecidableEq

/-- A node of a state: one of the graph as it was, or the part of one for an index. -/
inductive Node
  | orig (id : ℕ)
  | part (id : ℕ) (index : ℤ)
  deriving DecidableEq

/-- An edge; one without a memlet only orders its ends. -/
structure Edge where
  src : Node
  srcConn : Option String
  dst : Node
  dstConn : Option String
  memlet : Option Memlet
  deriving DecidableEq

/-- What a node is: an access node, a nested SDFG or anything else. -/
inductive Kind
  | access (data : String)
  | nested
  | code
  deriving DecidableEq

structure State where
  nodes : List ℕ
  kind : ℕ → Kind
  edges : List Edge

/-- What is split: an array of `rank` dimensions, along `dim`; a transient with no
dimension left becomes a scalar. -/
structure Target where
  name : String
  dim : ℕ
  rank : ℕ
  transient : Bool

/-- The part of an SDFG the split looks at: the names in use, its states and the arrays
read by interstate edges and by conditions. -/
structure Sdfg where
  names : List String
  states : List State
  reads : List String

/-- `_written`, `has_path` and the orders of a state speak of its edges. -/
def Adjacent (edges : List Edge) (a b : Node) : Prop := ∃ e ∈ edges, e.src = a ∧ e.dst = b

/-! ## The indices of an array -/

variable (t : Target)

/-- The node is an access node of the array. -/
def isArray (kind : ℕ → Kind) : Node → Bool
  | .orig id => decide (kind id = .access t.name)
  | .part _ _ => false

/-- `get_src_subset` and `get_dst_subset`: which of its two subsets a memlet has at the ends of an
edge.  It is derived anew at each call, from the nodes the edge has then. -/
class MemletSides where
  srcSubset : (ℕ → Kind) → Edge → Memlet → Option (List Dim)
  dstSubset : (ℕ → Kind) → Edge → Memlet → Option (List Dim)

open MemletSides

variable [MemletSides]

/-- What an edge touches of an array. -/
inductive Touch
  | nothing
  | unknown
  | subset (s : List Dim)
  deriving DecidableEq

def Touch.of : Option (List Dim) → Touch
  | some s => .subset s
  | none => .unknown

/-- `_subset_of` -/
def subsetOf (kind : ℕ → Kind) (e : Edge) (m : Memlet) : Touch :=
  if isArray t kind e.src then .of (srcSubset kind e m)
  else if isArray t kind e.dst then .of (dstSubset kind e m)
  else if m.data = t.name then .subset m.subset
  else .nothing

/-- `_constant` of the split dimension. -/
def constant (s : List Dim) : Option ℤ :=
  match s[t.dim]? with
  | some (.index k) => some k
  | _ => none

/-- The literal index an edge touches. -/
def indexOf (kind : ℕ → Kind) (e : Edge) : Option ℤ :=
  match e.memlet with
  | some m =>
      match subsetOf t kind e m with
      | .subset s => constant t s
      | _ => none
  | none => none

/-- The edge touches the array. -/
def touches (kind : ℕ → Kind) (e : Edge) : Bool :=
  match e.memlet with
  | some m => decide (subsetOf t kind e m ≠ .nothing)
  | none => false

/-- A nested SDFG takes the array. -/
def nestedTakes (st : State) : Bool :=
  st.nodes.any fun id => decide (st.kind id = .nested) &&
    st.edges.any fun e => (decide (e.dst = .orig id) || decide (e.src = .orig id)) &&
      e.memlet.any fun m => decide (m.data = t.name)

/-- `constant_indices` -/
def constantIndices (sdfg : Sdfg) : Option (List ℤ) :=
  if sdfg.states.any (nestedTakes t) then none
  else if sdfg.states.any fun st => st.edges.any fun e =>
      touches t st.kind e && (indexOf t st.kind e).isNone then none
  else if sdfg.reads.contains t.name then none
  else some (sdfg.states.flatMap fun st => st.edges.filterMap (indexOf t st.kind)).dedup

/-! ## Splitting a node -/

/-- `_without` -/
def without (s : List Dim) : List Dim :=
  if t.rank = 1 ∧ t.transient then [.index 0] else s.eraseIdx t.dim

/-- `names[k]` -/
def partName (k : ℤ) : String := t.name ++ "_" ++ toString k

/-- The memlet of an edge of the node: a copy's subset on the array loses the split
dimension here. -/
def moveMemlet (m : Memlet) : Memlet :=
  if m.data ≠ t.name then { m with other := m.other.map (without t) } else m

/-- A data edge of the node `id` moves to the part of its index. -/
def moveEdge (kind : ℕ → Kind) (id : ℕ) (e : Edge) : Edge :=
  let new := Node.part id ((indexOf t kind e).getD 0)
  if e.dst = .orig id then { e with dst := new, memlet := e.memlet.map (moveMemlet t) }
  else if e.src = .orig id then { e with src := new, memlet := e.memlet.map (moveMemlet t) }
  else e

/-- `_written` -/
def written (edges : List Edge) (n : Node) : Bool :=
  edges.any fun e => decide (e.dst = n) && e.memlet.isSome

/-- `state.add_nedge(a, b, dace.Memlet())` -/
def nedge (a b : Node) : Edge := ⟨a, none, b, none, none⟩

/-- The pairs `_keep_order` orders.  It adds empty edges only, so what is written into
and read from a part is known before. -/
def orderPairs (edges : List Edge) (parts : List Node) : List (Node × Node) :=
  parts.flatMap fun part =>
    if written edges part then
      parts.flatMap fun other =>
        if other = part then []
        else if written edges other then
          (edges.filter fun e => decide (e.src = other) && e.memlet.isSome).map
            fun e => (part, e.dst)
        else [(part, other)]
    else []

/-- `nx.has_path` over the edges of a state. -/
abbrev HasPath := List Edge → Node → Node → Bool

variable (hasPath : HasPath)

/-- One turn of `_keep_order`: an edge, unless a path already orders the two. -/
def addOrder (edges : List Edge) (pair : Node × Node) : List Edge :=
  if hasPath edges pair.1 pair.2 then edges else edges ++ [nedge pair.1 pair.2]

/-- `_keep_order` -/
def keepOrder (edges : List Edge) (parts : List Node) : List Edge :=
  (orderPairs edges parts).foldl (addOrder hasPath) edges

/-- The edges of a state that are none of the node `id`. -/
def otherEdges (id : ℕ) (edges : List Edge) : List Edge :=
  edges.filter fun e => decide (e.src ≠ .orig id) && decide (e.dst ≠ .orig id)

/-- The data edges of the node, into it and out of it. -/
def movingEdges (id : ℕ) (edges : List Edge) : List Edge :=
  (edges.filter (fun e => decide (e.dst = .orig id)) ++
    edges.filter (fun e => decide (e.src = .orig id))).filter (fun e => e.memlet.isSome)

/-- The parts of the node, in the order its edges use them. -/
def partsOf (kind : ℕ → Kind) (id : ℕ) (edges : List Edge) : List Node :=
  ((movingEdges id edges).map fun e => Node.part id ((indexOf t kind e).getD 0)).dedup

/-- What the node was ordered after. -/
def beforeEdges (id : ℕ) (edges : List Edge) : List Edge :=
  edges.filter fun e => decide (e.dst = .orig id) && e.memlet.isNone

/-- What was ordered after the node. -/
def afterEdges (id : ℕ) (edges : List Edge) : List Edge :=
  edges.filter fun e => decide (e.src = .orig id) && e.memlet.isNone

/-- The edges of the state with the node split, before `_keep_order`: what the node was
ordered after, each part is; without parts, its successors are. -/
def partEdges (kind : ℕ → Kind) (id : ℕ) (edges : List Edge) : List Edge :=
  let parts := partsOf t kind id edges
  let after := afterEdges id edges
  let targets := if parts = [] then after.map fun a => (a.dst, a.dstConn)
    else parts.map fun p => (p, none)
  otherEdges id edges ++ (movingEdges id edges).map (moveEdge t kind id) ++
    ((beforeEdges id edges).flatMap fun b => targets.map fun x =>
      ⟨b.src, b.srcConn, x.1, x.2, none⟩) ++
    (after.flatMap fun a => parts.map fun p => ⟨p, none, a.dst, a.dstConn, none⟩)

/-- The loop body for one access node; `none` where looking up `names` raises. -/
def splitNode (kind : ℕ → Kind) (indices : List ℤ) (edges : List Edge) (id : ℕ) :
    Option (List Edge) :=
  if (movingEdges id edges).all fun e => (indexOf t kind e).any (indices.contains ·) then
    some (keepOrder hasPath (partEdges t kind id edges) (partsOf t kind id edges))
  else none

/-! ## Splitting the array -/

/-- A memlet naming the array is of its index's array. -/
def renameMemlet (m : Memlet) : Memlet :=
  if m.data = t.name then
    { m with data := partName t ((constant t m.subset).getD 0), subset := without t m.subset }
  else m

/-- The index of every memlet naming the array has a name. -/
def renamable (indices : List ℤ) (edges : List Edge) : Bool :=
  edges.all fun e => e.memlet.all fun m =>
    decide (m.data ≠ t.name) || (constant t m.subset).any (indices.contains ·)

/-- The access nodes of the array. -/
def arrayNodes (st : State) : List ℕ := st.nodes.filter fun id => isArray t st.kind (.orig id)

/-- The edges of a state with the array split. -/
def splitState (indices : List ℤ) (st : State) : Option (List Edge) := do
  let edges ← (arrayNodes t st).foldlM (splitNode t hasPath st.kind indices) st.edges
  if renamable t indices edges then
    some (edges.map fun e => { e with memlet := e.memlet.map (renameMemlet t) })
  else none

/-- How the split ends: the SDFG unchanged, an exception, or the edges of every state. -/
inductive Outcome
  | declined
  | raised
  | split (states : List (List Edge))

/-- `split_array` -/
def splitArray (sdfg : Sdfg) : Outcome :=
  match constantIndices t sdfg with
  | none | some [] => .declined
  | some indices =>
      if indices.any fun k => sdfg.names.contains (partName t k) then .declined
      else
        match sdfg.states.mapM (splitState t hasPath indices) with
        | some states => .split states
        | none => .raised

end ArraySplit

/-
# One node split

Collapsing the parts of a node maps every edge of the split state to a path of the
state before, an edge from a part written into to one only read apart; and every way
through the node has a path among its parts.
-/

namespace ArraySplit

open Relation Collapse

variable [MemletSides] {t : Target} {hasPath : HasPath} {kind : ℕ → Kind} {id : ℕ}
  {edges : List Edge}

/-- `nx.has_path` finds the paths there are. -/
def FindsPaths (hasPath : HasPath) : Prop :=
  ∀ edges a b, hasPath edges a b = true ↔ ReflTransGen (Adjacent edges) a b

/-! ## `_keep_order` -/

variable {a b : Node} {e : Edge} {n : Node}

omit [MemletSides] in
theorem adjacent_mono {edges edges' : List Edge} (h : ∀ e ∈ edges, e ∈ edges')
    (hab : Adjacent edges a b) : Adjacent edges' a b := by
  obtain ⟨e, he, hsrc, hdst⟩ := hab
  exact ⟨e, h e he, hsrc, hdst⟩

omit [MemletSides] in
/-- Ordering pairs adds empty edges of the pairs, and in the end every pair is ordered. -/
theorem foldl_addOrder (hpath : FindsPaths hasPath) (pairs : List (Node × Node))
    (edges : List Edge) :
    (∀ e ∈ edges, e ∈ pairs.foldl (addOrder hasPath) edges) ∧
    (∀ e ∈ pairs.foldl (addOrder hasPath) edges,
      e ∈ edges ∨ ∃ pair ∈ pairs, e = nedge pair.1 pair.2) ∧
    ∀ pair ∈ pairs,
      ReflTransGen (Adjacent (pairs.foldl (addOrder hasPath) edges)) pair.1 pair.2 := by
  induction pairs generalizing edges with
  | nil => exact ⟨fun e he => he, fun e he => .inl he, by simp⟩
  | cons pair pairs ih =>
    rw [foldl_cons]
    obtain ⟨hkept, hadded, hordered⟩ := ih (addOrder hasPath edges pair)
    have hstep : ∀ e, e ∈ addOrder hasPath edges pair →
        e ∈ edges ∨ e = nedge pair.1 pair.2 := by
      intro e he
      rw [addOrder] at he
      split at he
      · exact .inl he
      · simpa using he
    have hgrown : ∀ e ∈ edges, e ∈ addOrder hasPath edges pair := by
      intro e he
      rw [addOrder]
      split
      · exact he
      · exact mem_append_left _ he
    have hfirst : ReflTransGen (Adjacent (addOrder hasPath edges pair)) pair.1 pair.2 := by
      by_cases hp : hasPath edges pair.1 pair.2 = true
      · rw [addOrder, if_pos hp]
        exact (hpath _ _ _).mp hp
      · rw [addOrder, if_neg hp]
        exact .single ⟨nedge pair.1 pair.2, by simp, rfl, rfl⟩
    refine ⟨fun e he => hkept e (hgrown e he), fun e he => ?_, fun p hp => ?_⟩
    · rcases hadded e he with he | ⟨p, hp, rfl⟩
      · rcases hstep e he with he | rfl
        · exact .inl he
        · exact .inr ⟨pair, mem_cons_self, rfl⟩
      · exact .inr ⟨p, mem_cons_of_mem _ hp, rfl⟩
    · rcases mem_cons.mp hp with rfl | hp
      · exact ReflTransGen.mono (fun a b hab => adjacent_mono hkept hab) _ _ hfirst
      · exact hordered p hp

omit [MemletSides] in
/-- The pairs to order: a part written into, and another part only read or the reader
of another part written into. -/
theorem mem_orderPairs {parts : List Node} {pair : Node × Node} :
    pair ∈ orderPairs edges parts ↔
      pair.1 ∈ parts ∧ written edges pair.1 = true ∧ ∃ other ∈ parts, other ≠ pair.1 ∧
        ((written edges other = false ∧ pair.2 = other) ∨
          (written edges other = true ∧
            ∃ e ∈ edges, e.src = other ∧ e.memlet.isSome = true ∧ e.dst = pair.2)) := by
  obtain ⟨a, b⟩ := pair
  rw [orderPairs, mem_flatMap]
  constructor
  · rintro ⟨part, hpart, hmem⟩
    by_cases hw : written edges part = true
    · rw [if_pos hw] at hmem
      obtain ⟨other, hother, hmem⟩ := mem_flatMap.mp hmem
      by_cases hsame : other = part
      · simp [hsame] at hmem
      · rw [if_neg hsame] at hmem
        by_cases hwo : written edges other = true
        · rw [if_pos hwo] at hmem
          obtain ⟨e, he, heq⟩ := mem_map.mp hmem
          obtain ⟨rfl, rfl⟩ := Prod.mk.inj heq
          rw [mem_filter, Bool.and_eq_true, decide_eq_true_eq] at he
          exact ⟨hpart, hw, other, hother, hsame, .inr ⟨hwo, e, he.1, he.2.1, he.2.2, rfl⟩⟩
        · rw [if_neg hwo, mem_singleton] at hmem
          obtain ⟨rfl, rfl⟩ := Prod.mk.inj hmem
          exact ⟨hpart, hw, b, hother, hsame, .inl ⟨by simpa using hwo, rfl⟩⟩
    · rw [if_neg hw] at hmem
      cases hmem
  · rintro ⟨hpart, hw, other, hother, hne, hcase⟩
    refine ⟨a, hpart, ?_⟩
    rw [if_pos hw, mem_flatMap]
    refine ⟨other, hother, ?_⟩
    rw [if_neg hne]
    rcases hcase with ⟨hwo, hb⟩ | ⟨hwo, e, he, hsrc, hdata, hdst⟩
    · obtain rfl : b = other := hb
      simp [hwo]
    · rw [if_pos hwo, mem_map]
      refine ⟨e, mem_filter.mpr ⟨he, ?_⟩, by rw [hdst]⟩
      simp [hsrc, hdata]

/-! ## The edges of the split state -/

/-- The part an edge of the node moves to. -/
def partFor (t : Target) (kind : ℕ → Kind) (id : ℕ) (e : Edge) : Node :=
  .part id ((indexOf t kind e).getD 0)

omit [MemletSides] in
theorem mem_movingEdges :
    e ∈ movingEdges id edges ↔
      e ∈ edges ∧ (e.dst = .orig id ∨ e.src = .orig id) ∧ e.memlet.isSome = true := by
  simp only [movingEdges, mem_filter, mem_append, decide_eq_true_eq]
  tauto

theorem mem_partsOf :
    n ∈ partsOf t kind id edges ↔ ∃ e ∈ movingEdges id edges, partFor t kind id e = n := by
  simp [partsOf, partFor]

/-- A part's edges into it and out of it. -/
theorem moveEdge_of_dst (h : e.dst = .orig id) :
    moveEdge t kind id e
      = { e with dst := partFor t kind id e, memlet := e.memlet.map (moveMemlet t) } := by
  rw [moveEdge, if_pos h, partFor]

theorem moveEdge_of_src (h : e.src = .orig id) (h' : e.dst ≠ .orig id) :
    moveEdge t kind id e
      = { e with src := partFor t kind id e, memlet := e.memlet.map (moveMemlet t) } := by
  rw [moveEdge, if_neg h', if_pos h, partFor]

theorem moveEdge_of_other (h : e.src ≠ .orig id) (h' : e.dst ≠ .orig id) :
    moveEdge t kind id e = e := by
  rw [moveEdge, if_neg h', if_neg h]

theorem isSome_moveEdge (e : Edge) :
    (moveEdge t kind id e).memlet.isSome = e.memlet.isSome := by
  rw [moveEdge]
  split
  · simp
  · split <;> simp

/-- The edges before `_keep_order`: those of other nodes, the data edges moved, and empty
edges from the predecessors to the parts, from them to the successors, or past the node. -/
theorem mem_partEdges :
    e ∈ partEdges t kind id edges ↔
      (e ∈ edges ∧ e.src ≠ .orig id ∧ e.dst ≠ .orig id) ∨
      (∃ f ∈ movingEdges id edges, e = moveEdge t kind id f) ∨
      (∃ b ∈ beforeEdges id edges, ∃ p ∈ partsOf t kind id edges,
        e = ⟨b.src, b.srcConn, p, none, none⟩) ∨
      (partsOf t kind id edges = [] ∧ ∃ b ∈ beforeEdges id edges, ∃ a ∈ afterEdges id edges,
        e = ⟨b.src, b.srcConn, a.dst, a.dstConn, none⟩) ∨
      (∃ a ∈ afterEdges id edges, ∃ p ∈ partsOf t kind id edges,
        e = ⟨p, none, a.dst, a.dstConn, none⟩) := by
  by_cases hparts : partsOf t kind id edges = []
  · simp only [partEdges, otherEdges, hparts, if_true, mem_append, mem_filter,
      mem_map, mem_flatMap, map_nil, not_mem_nil, false_and, exists_false,
      and_false, Bool.and_eq_true, decide_eq_true_eq, true_and, or_false, false_or]
    constructor
    · rintro ((h | ⟨f, hf, rfl⟩) | ⟨b, hb, x, ⟨a, ha, rfl⟩, rfl⟩)
      · exact .inl h
      · exact .inr (.inl ⟨f, hf, rfl⟩)
      · exact .inr (.inr ⟨b, hb, a, ha, rfl⟩)
    · rintro (h | ⟨f, hf, rfl⟩ | ⟨b, hb, a, ha, rfl⟩)
      · exact .inl (.inl h)
      · exact .inl (.inr ⟨f, hf, rfl⟩)
      · exact .inr ⟨b, hb, _, ⟨a, ha, rfl⟩, rfl⟩
  · simp only [partEdges, otherEdges, hparts, if_false, mem_append, mem_filter,
      mem_map, mem_flatMap, Bool.and_eq_true, decide_eq_true_eq, false_and, false_or]
    constructor
    · rintro (((h | ⟨f, hf, rfl⟩) | ⟨b, hb, x, ⟨p, hp, rfl⟩, rfl⟩) | ⟨a, ha, p, hp, rfl⟩)
      · exact .inl h
      · exact .inr (.inl ⟨f, hf, rfl⟩)
      · exact .inr (.inr (.inl ⟨b, hb, p, hp, rfl⟩))
      · exact .inr (.inr (.inr ⟨a, ha, p, hp, rfl⟩))
    · rintro (h | ⟨f, hf, rfl⟩ | ⟨b, hb, p, hp, rfl⟩ | ⟨a, ha, p, hp, rfl⟩)
      · exact .inl (.inl (.inl h))
      · exact .inl (.inl (.inr ⟨f, hf, rfl⟩))
      · exact .inl (.inr ⟨b, hb, _, ⟨p, hp, rfl⟩, rfl⟩)
      · exact .inr ⟨a, ha, p, hp, rfl⟩

/-! ## Collapsing the parts -/

/-- The node a part was split from; the other nodes are themselves. -/
def collapse (id : ℕ) : Node → Node
  | .part id' k => if id' = id then .orig id else .part id' k
  | .orig id' => .orig id'

/-- No edge touches a part of the node yet. -/
def Fresh (id : ℕ) (edges : List Edge) : Prop :=
  ∀ e ∈ edges, ∀ k, e.src ≠ .part id k ∧ e.dst ≠ .part id k

omit [MemletSides] in
theorem collapse_of_ne (h : ∀ k, n ≠ .part id k) : collapse id n = n := by
  cases n with
  | orig id' => rfl
  | part id' k =>
    have hid : id' ≠ id := fun heq => h k (by rw [heq])
    rw [collapse, if_neg hid]

omit [MemletSides] in
theorem collapse_part (k : ℤ) : collapse id (.part id k) = .orig id := by
  rw [collapse, if_pos rfl]

theorem collapse_partFor (e : Edge) : collapse id (partFor t kind id e) = .orig id :=
  collapse_part _

/-- Parts only read come after those written into. -/
def rank (edges : List Edge) (n : Node) : ℕ := if written edges n then 0 else 1

/-- A moved edge leads where the edge led. -/
theorem adjacent_moveEdge (he : e ∈ movingEdges id edges) (hfresh : Fresh id edges)
    (hloop : ¬ Adjacent edges (.orig id) (.orig id)) :
    Adjacent edges (collapse id (moveEdge t kind id e).src)
      (collapse id (moveEdge t kind id e).dst) := by
  obtain ⟨hmem, hends, -⟩ := mem_movingEdges.mp he
  have hfe := hfresh e hmem
  by_cases hdst : e.dst = .orig id
  · have hsrc : e.src ≠ .orig id := fun hsrc => hloop ⟨e, hmem, hsrc, hdst⟩
    rw [moveEdge_of_dst hdst]
    show Adjacent edges (collapse id e.src) (collapse id (partFor t kind id e))
    rw [collapse_of_ne fun k => (hfe k).1, collapse_partFor]
    exact ⟨e, hmem, rfl, hdst⟩
  · have hsrc : e.src = .orig id := hends.resolve_left hdst
    rw [moveEdge_of_src hsrc hdst]
    show Adjacent edges (collapse id (partFor t kind id e)) (collapse id e.dst)
    rw [collapse_of_ne fun k => (hfe k).2, collapse_partFor]
    exact ⟨e, hmem, hsrc, rfl⟩

theorem collapse_of_mem_partsOf (h : n ∈ partsOf t kind id edges) :
    collapse id n = .orig id := by
  obtain ⟨e, -, rfl⟩ := mem_partsOf.mp h
  exact collapse_partFor e

/-- Every edge before `_keep_order` collapses to a path. -/
theorem transGen_partEdges (hfresh : Fresh id edges)
    (hloop : ¬ Adjacent edges (.orig id) (.orig id))
    (he : e ∈ partEdges t kind id edges) :
    TransGen (Adjacent edges) (collapse id e.src) (collapse id e.dst) := by
  have hbefore : ∀ b ∈ beforeEdges id edges,
      collapse id b.src = b.src ∧ Adjacent edges b.src (.orig id) := by
    intro b hb
    rw [beforeEdges, mem_filter, Bool.and_eq_true, decide_eq_true_eq] at hb
    exact ⟨collapse_of_ne fun k => (hfresh b hb.1 k).1, b, hb.1, rfl, hb.2.1⟩
  have hafter : ∀ a ∈ afterEdges id edges,
      collapse id a.dst = a.dst ∧ Adjacent edges (.orig id) a.dst := by
    intro a ha
    rw [afterEdges, mem_filter, Bool.and_eq_true, decide_eq_true_eq] at ha
    exact ⟨collapse_of_ne fun k => (hfresh a ha.1 k).2, a, ha.1, ha.2.1, rfl⟩
  rcases mem_partEdges.mp he with ⟨hmem, -, -⟩ | ⟨f, hf, rfl⟩ | ⟨b, hb, p, hp, rfl⟩ |
    ⟨-, b, hb, a, ha, rfl⟩ | ⟨a, ha, p, hp, rfl⟩
  · rw [collapse_of_ne fun k => (hfresh e hmem k).1, collapse_of_ne fun k => (hfresh e hmem k).2]
    exact .single ⟨e, hmem, rfl, rfl⟩
  · exact .single (adjacent_moveEdge hf hfresh hloop)
  · show TransGen _ (collapse id b.src) (collapse id p)
    rw [(hbefore b hb).1, collapse_of_mem_partsOf hp]
    exact .single (hbefore b hb).2
  · show TransGen _ (collapse id b.src) (collapse id a.dst)
    rw [(hbefore b hb).1, (hafter a ha).1]
    exact .tail (.single (hbefore b hb).2) (hafter a ha).2
  · show TransGen _ (collapse id p) (collapse id a.dst)
    rw [(hafter a ha).1, collapse_of_mem_partsOf hp]
    exact .single (hafter a ha).2

/-- **Every edge of the split state collapses to a path, or leads from a part written into
to one only read.** -/
theorem collapse_keepOrder (hpath : FindsPaths hasPath) (hfresh : Fresh id edges)
    (hloop : ¬ Adjacent edges (.orig id) (.orig id))
    (hab : Adjacent (keepOrder hasPath (partEdges t kind id edges) (partsOf t kind id edges)) a b) :
    TransGen (Adjacent edges) (collapse id a) (collapse id b) ∨
      (collapse id a = collapse id b ∧
        rank (partEdges t kind id edges) a < rank (partEdges t kind id edges) b) := by
  obtain ⟨e, he, rfl, rfl⟩ := hab
  rcases (foldl_addOrder hpath _ _).2.1 e he with he | ⟨pair, hpair, rfl⟩
  · exact .inl (transGen_partEdges hfresh hloop he)
  obtain ⟨hpart, hw, other, hother, -, hcase⟩ := mem_orderPairs.mp hpair
  show TransGen _ (collapse id pair.1) (collapse id pair.2) ∨ _
  rcases hcase with ⟨hwo, hdst⟩ | ⟨-, f, hf, hsrc, -, hdst⟩
  · refine .inr ⟨?_, ?_⟩
    · show collapse id pair.1 = collapse id pair.2
      rw [hdst, collapse_of_mem_partsOf hpart, collapse_of_mem_partsOf hother]
    · show rank _ pair.1 < rank _ pair.2
      simp [rank, hw, hdst, hwo]
  · left
    have hread := transGen_partEdges hfresh hloop hf
    rw [hsrc, hdst, collapse_of_mem_partsOf hother] at hread
    rwa [collapse_of_mem_partsOf hpart]

/-! ## The ways through the node -/

/-- **Whatever led into the node still leads to whatever it led to.** -/
theorem through_keepOrder (hpath : FindsPaths hasPath)
    (hloop : ¬ Adjacent edges (.orig id) (.orig id))
    (ha : Adjacent edges a (.orig id)) (hb : Adjacent edges (.orig id) b) :
    TransGen (Adjacent
      (keepOrder hasPath (partEdges t kind id edges) (partsOf t kind id edges))) a b := by
  obtain ⟨e, he, rfl, hedst⟩ := ha
  obtain ⟨f, hf, hfsrc, rfl⟩ := hb
  have hesrc : e.src ≠ .orig id := fun h => hloop ⟨e, he, h, hedst⟩
  have hfdst : f.dst ≠ .orig id := fun h => hloop ⟨f, hf, hfsrc, h⟩
  obtain ⟨hkept, -, hordered⟩ := foldl_addOrder hpath
    (orderPairs (partEdges t kind id edges) (partsOf t kind id edges)) (partEdges t kind id edges)
  have hadj : ∀ g ∈ partEdges t kind id edges, Adjacent
      (keepOrder hasPath (partEdges t kind id edges) (partsOf t kind id edges)) g.src g.dst :=
    fun g hg => ⟨g, hkept g hg, rfl, rfl⟩
  -- a data edge goes into its part, or comes out of it
  have hinto : e.memlet.isSome = true →
      e ∈ movingEdges id edges ∧ partFor t kind id e ∈ partsOf t kind id edges ∧
      moveEdge t kind id e ∈ partEdges t kind id edges ∧
      (moveEdge t kind id e).src = e.src ∧ (moveEdge t kind id e).dst = partFor t kind id e := by
    intro hdata
    have hmoving := mem_movingEdges.mpr ⟨he, .inl hedst, hdata⟩
    refine ⟨hmoving, mem_partsOf.mpr ⟨e, hmoving, rfl⟩,
      mem_partEdges.mpr (.inr (.inl ⟨e, hmoving, rfl⟩)), ?_, ?_⟩
    · rw [moveEdge_of_dst hedst]
    · rw [moveEdge_of_dst hedst]
  have hfrom : f.memlet.isSome = true →
      f ∈ movingEdges id edges ∧ partFor t kind id f ∈ partsOf t kind id edges ∧
      moveEdge t kind id f ∈ partEdges t kind id edges ∧
      (moveEdge t kind id f).src = partFor t kind id f ∧ (moveEdge t kind id f).dst = f.dst := by
    intro hdata
    have hmoving := mem_movingEdges.mpr ⟨hf, .inr hfsrc, hdata⟩
    refine ⟨hmoving, mem_partsOf.mpr ⟨f, hmoving, rfl⟩,
      mem_partEdges.mpr (.inr (.inl ⟨f, hmoving, rfl⟩)), ?_, ?_⟩
    · rw [moveEdge_of_src hfsrc hfdst]
    · rw [moveEdge_of_src hfsrc hfdst]
  have hbefore : e.memlet.isSome = false → e ∈ beforeEdges id edges := by
    intro h
    rw [beforeEdges, mem_filter]
    exact ⟨he, by simpa [hedst] using h⟩
  have hafter : f.memlet.isSome = false → f ∈ afterEdges id edges := by
    intro h
    rw [afterEdges, mem_filter]
    exact ⟨hf, by simpa [hfsrc] using h⟩
  cases hed : e.memlet.isSome with
  | true =>
    obtain ⟨-, hpe, hmovede, hsrce, hdste⟩ := hinto hed
    have hstart := hadj _ hmovede
    rw [hsrce, hdste] at hstart
    cases hfd : f.memlet.isSome with
    | true =>
      obtain ⟨-, hpf, hmovedf, hsrcf, hdstf⟩ := hfrom hfd
      have hend := hadj _ hmovedf
      rw [hsrcf, hdstf] at hend
      by_cases hsame : partFor t kind id f = partFor t kind id e
      · rw [hsame] at hend
        exact .tail (.single hstart) hend
      -- the write of one part comes before the read of another
      have hwritten : written (partEdges t kind id edges) (partFor t kind id e) = true := by
        rw [written, any_eq_true]
        refine ⟨_, hmovede, ?_⟩
        rw [isSome_moveEdge, hed]
        simp [hdste]
      cases hwf : written (partEdges t kind id edges) (partFor t kind id f) with
      | false =>
        have hpair := hordered (partFor t kind id e, partFor t kind id f)
          (mem_orderPairs.mpr ⟨hpe, hwritten, _, hpf, hsame, .inl ⟨hwf, rfl⟩⟩)
        exact (TransGen.single hstart).trans_left hpair |>.tail hend
      | true =>
        have hpair := hordered (partFor t kind id e, f.dst)
          (mem_orderPairs.mpr ⟨hpe, hwritten, _, hpf, hsame, .inr ⟨hwf, _, hmovedf, hsrcf,
            by rw [isSome_moveEdge, hfd], hdstf⟩⟩)
        exact (TransGen.single hstart).trans_left hpair
    | false =>
      have hend := hadj _ (mem_partEdges.mpr (.inr (.inr (.inr (.inr
        ⟨f, hafter hfd, _, hpe, rfl⟩)))))
      exact .tail (.single hstart) hend
  | false =>
    cases hfd : f.memlet.isSome with
    | true =>
      obtain ⟨-, hpf, hmovedf, hsrcf, hdstf⟩ := hfrom hfd
      have hend := hadj _ hmovedf
      rw [hsrcf, hdstf] at hend
      have hstart := hadj _ (mem_partEdges.mpr (.inr (.inr (.inl ⟨e, hbefore hed, _, hpf, rfl⟩))))
      exact .tail (.single hstart) hend
    | false =>
      by_cases hparts : partsOf t kind id edges = []
      · exact .single (hadj _ (mem_partEdges.mpr (.inr (.inr (.inr (.inl
          ⟨hparts, e, hbefore hed, f, hafter hfd, rfl⟩))))))
      · obtain ⟨p, hp⟩ := exists_mem_of_ne_nil _ hparts
        have hstart := hadj _ (mem_partEdges.mpr (.inr (.inr (.inl ⟨e, hbefore hed, p, hp, rfl⟩))))
        have hend := hadj _ (mem_partEdges.mpr
          (.inr (.inr (.inr (.inr ⟨f, hafter hfd, p, hp, rfl⟩)))))
        exact .tail (.single hstart) hend

/-! ## One step -/

/-- **Splitting one node** closes no cycle and keeps how the other nodes reach each other. -/
theorem splitNode_order (hpath : FindsPaths hasPath) (hfresh : Fresh id edges)
    (hacyclic : ∀ a, ¬ TransGen (Adjacent edges) a a) {indices : List ℤ} {edges' : List Edge}
    (hsplit : splitNode t hasPath kind indices edges id = some edges') :
    (∀ a, ¬ TransGen (Adjacent edges') a a) ∧
    ∀ a b, a ≠ .orig id → b ≠ .orig id → (∀ k, a ≠ .part id k) → (∀ k, b ≠ .part id k) →
      (TransGen (Adjacent edges) a b ↔ TransGen (Adjacent edges') a b) := by
  have hloop : ¬ Adjacent edges (.orig id) (.orig id) := fun h => hacyclic _ (.single h)
  obtain rfl : keepOrder hasPath (partEdges t kind id edges) (partsOf t kind id edges) =
      edges' := by
    rw [splitNode] at hsplit
    split at hsplit
    · exact Option.some.inj hsplit
    · cases hsplit
  refine ⟨acyclic_of_collapse (collapse id) (rank (partEdges t kind id edges))
    (fun a b => collapse_keepOrder hpath hfresh hloop) hacyclic, ?_⟩
  intro a b ha hb hpa hpb
  constructor
  · intro h
    refine transGen_bypass (v := .orig id) ?_
      (fun a b => through_keepOrder hpath hloop) hloop h ha hb
    rintro a b ha hb ⟨e, he, rfl, rfl⟩
    exact .single ⟨e, (foldl_addOrder hpath _ _).1 e (mem_partEdges.mpr (.inl ⟨he, ha, hb⟩)),
      rfl, rfl⟩
  · intro h
    have hback := transGen_collapse (collapse id) (rank (partEdges t kind id edges))
      (fun a b => collapse_keepOrder hpath hfresh hloop) h
    rw [collapse_of_ne hpa, collapse_of_ne hpb] at hback
    rcases hback with hback | ⟨rfl, hrank⟩
    · exact hback
    · exact absurd hrank (Nat.lt_irrefl _)

end ArraySplit
