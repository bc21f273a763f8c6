/-
# Statement order in a state

`order_state` adds ordering edges to the graph of a state: between the writers of one
access node, and between the accesses of one container that are created one after the
other.  Reachability is kept in a dictionary that is updated with every edge; an edge
that would close a cycle is skipped and reported.
-/
import DaceFortran.Lib.Worklist
import DaceFortran.Lib.EdgeInsertion
import Mathlib.Data.List.ProdSigma

open List

namespace StatementOrder

/-! ## States -/

/-- The nodes, by their ids: access nodes of a container, the two ends of a scope, and
tasklets and the like. -/
inductive Kind (n : ℕ) where
  | access (container : ℕ)
  | entry (exit : Fin n)
  | exit (entry : Fin n)
  | code
  deriving DecidableEq

/-- An edge with what its memlet says of a store: the subset stored into, where it is
known, and whether it accumulates.  An ordering edge has an empty memlet. -/
structure Edge (n : ℕ) (S : Type) where
  src : Fin n
  dst : Fin n
  subset : Option S
  wcr : Bool
  isEmpty : Bool

/-- A state: the nodes with whether they stand outside all scopes, and its edges. -/
structure State (n : ℕ) (S : Type) where
  kind : Fin n → Kind n
  topLevel : Fin n → Bool
  edges : List (Edge n S)

variable {n : ℕ} {S : Type}

/-- There is an edge. -/
def Adjacent (edges : List (Edge n S)) (a b : Fin n) : Prop := ∃ e ∈ edges, e.src = a ∧ e.dst = b

/-- There is a path. -/
def Leads (edges : List (Edge n S)) : Fin n → Fin n → Prop :=
  Relation.TransGen (Adjacent edges)

def successors (edges : List (Edge n S)) (a : Fin n) : List (Fin n) :=
  (edges.filter fun e => decide (e.src = a)).map Edge.dst

/-- `descendants` -/
def descendants (edges : List (Edge n S)) (source : Fin n) : List (Fin n) :=
  Worklist.close (fun seen a => (successors edges a).filter fun b => decide (b ∉ seen))
    (successors edges source) []

/-- `Memlet()` on an edge -/
def orderingEdge (src dst : Fin n) : Edge n S := ⟨src, dst, none, false, true⟩

/-! ## Anchors -/

/-- `completion_anchor` -/
def completionAnchor (kind : Fin n → Kind n) (node : Fin n) : Fin n :=
  match kind node with
  | .entry exit => exit
  | _ => node

/-- `start_anchor` -/
def startAnchor (kind : Fin n → Kind n) (node : Fin n) : Fin n :=
  match kind node with
  | .exit entry => entry
  | _ => node

def isAccess (kind : Fin n → Kind n) (node : Fin n) : Bool :=
  match kind node with
  | .access _ => true
  | _ => false

/-- The walk of `store_anchors` and `load_anchors` from a node over its neighbours: the
anchors of those that are no access nodes, and those of the access nodes not seen yet. -/
def anchorsFrom (kind : Fin n → Kind n) (anchor : Fin n → Fin n)
    (neighbours : Fin n → List (Fin n)) : ℕ → Fin n → List (Fin n) → List (Fin n) × List (Fin n)
  | 0, node, seen => ([node], seen)
  | fuel + 1, node, seen =>
      let found := (neighbours node).foldl
        (fun (acc : List (Fin n) × List (Fin n)) next =>
          if isAccess kind next then
            if next ∈ acc.2 then acc
            else
              let deeper := anchorsFrom kind anchor neighbours fuel next (next :: acc.2)
              (acc.1 ++ deeper.1, deeper.2)
          else (acc.1 ++ [anchor next], acc.2))
        ([], seen)
      (if found.1 = [] then [node] else found.1, found.2)

/-- `store_anchors` -/
def storeAnchors (kind : Fin n → Kind n) (edges : List (Edge n S)) (node : Fin n) :
    List (Fin n) :=
  (anchorsFrom kind (startAnchor kind)
    (fun a => (edges.filter fun e => decide (e.dst = a)).map Edge.src) n node [node]).1

/-- `load_anchors` -/
def loadAnchors (kind : Fin n → Kind n) (edges : List (Edge n S)) (node : Fin n) :
    List (Fin n) :=
  (anchorsFrom kind (completionAnchor kind) (successors edges) n node [node]).1

/-! ## The writers of one node -/

/-- `SkippedEdge` -/
structure SkippedEdge (n : ℕ) where
  container : ℕ
  src : Fin n
  dst : Fin n

/-- The edges so far and what has been skipped. -/
structure Progress (n : ℕ) (S : Type) where
  edges : List (Edge n S)
  skipped : List (SkippedEdge n)

/-- The pairs of a list, each in its order. -/
def pairsOf {α : Type} : List α → List (α × α)
  | [] => []
  | a :: as => as.map (fun b => (a, b)) ++ pairsOf as

/-- A store into a node. -/
abbrev Store (n : ℕ) (S : Type) := Fin n × Option S

/-- The elements may be the same. -/
def mayMeet (intersects : S → S → Option Bool) (a b : Option S) : Bool :=
  match a, b with
  | some s, some t => decide (intersects s t ≠ some false)
  | _, _ => true

/-- The plain stores into a node, by the ids of their writers. -/
def plainStores (edges : List (Edge n S)) (node : Fin n) : List (Store n S) :=
  ((edges.filter fun e => decide (e.dst = node) && !e.isEmpty && !e.wcr).map
    fun e => (e.src, e.subset)).mergeSort fun a b => decide (a.1 ≤ b.1)

/-- One pair of writers. -/
def orderStores (kind : Fin n → Kind n) (container : ℕ) (p : Progress n S)
    (pair : Store n S × Store n S) : Progress n S :=
  let src := completionAnchor kind pair.1.1
  let dst := startAnchor kind pair.2.1
  if dst ∈ descendants p.edges src then p
  else if src ∈ descendants p.edges dst then
    { p with skipped := p.skipped ++ [⟨container, src, dst⟩] }
  else { p with edges := p.edges ++ [orderingEdge src dst] }

/-- The pairs of stores into a node that are ordered. -/
def storePairs (intersects : S → S → Option Bool) (edges : List (Edge n S)) (node : Fin n) :
    List (Store n S × Store n S) :=
  (pairsOf (plainStores edges node)).filter fun pair =>
    decide (pair.1.1 ≠ pair.2.1) && mayMeet intersects pair.1.2 pair.2.2

def orderWritersOf (kind : Fin n → Kind n) (intersects : S → S → Option Bool)
    (p : Progress n S) (node : Fin n) : Progress n S :=
  match kind node with
  | .access container =>
      (storePairs intersects p.edges node).foldl (orderStores kind container) p
  | _ => p

/-- `order_writers` -/
def orderWriters (intersects : S → S → Option Bool) (state : State n S) : Progress n S :=
  (List.finRange n).foldl (orderWritersOf state.kind intersects) ⟨state.edges, []⟩

/-! ## The accesses of one container -/

/-- The state of `order_state`: the edges, what has been skipped, and the dictionary of
the nodes reached. -/
structure Work (n : ℕ) (S : Type) where
  edges : List (Edge n S)
  skipped : List (SkippedEdge n)
  reach : Fin n → Option (List (Fin n))

/-- `reach.get(id(node))`, computed where it is missing. -/
def Work.fetch (w : Work n S) (node : Fin n) : List (Fin n) × Work n S :=
  match w.reach node with
  | some known => (known, w)
  | none =>
      let known := descendants w.edges node
      (known, { w with reach := Function.update w.reach node (some known) })

/-- An ordering edge, where there is no path and it closes no cycle. -/
def orderEdge (container : ℕ) (w : Work n S) (pair : Fin n × Fin n) : Work n S :=
  if pair.1 = pair.2 then w
  else
    let (srcReach, w₁) := w.fetch pair.1
    if pair.2 ∈ srcReach then w₁
    else
      let (dstReach, w₂) := w₁.fetch pair.2
      if pair.1 ∈ dstReach then
        { w₂ with skipped := w₂.skipped ++ [⟨container, pair.1, pair.2⟩] }
      else
        { w₂ with
          edges := w₂.edges ++ [orderingEdge pair.1 pair.2]
          reach := fun key => (w₂.reach key).map fun known =>
            if key = pair.1 ∨ pair.1 ∈ known then known ++ (pair.2 :: dstReach) else known }

/-- `state.in_degree(node) > 0` -/
def isWritten (edges : List (Edge n S)) (node : Fin n) : Bool :=
  edges.any fun e => decide (e.dst = node)

/-- One pair of accesses of a container. -/
def orderPair (kind : Fin n → Kind n) (container : ℕ) (w : Work n S) (pair : Fin n × Fin n) :
    Work n S :=
  let earlier := pair.1
  let later := pair.2
  if earlier ∈ (w.reach later).getD [] then w
  else if !isWritten w.edges earlier && !isWritten w.edges later then w
  else if isWritten w.edges later then
    (((loadAnchors kind w.edges earlier).product (storeAnchors kind w.edges later)).foldl
      (orderEdge container) w)
  else if later ∈ (w.reach earlier).getD [] then w
  else orderEdge container w (earlier, later)

/-- The top-level access nodes of a container, by their ids. -/
def accessesOf (state : State n S) (container : ℕ) : List (Fin n) :=
  (List.finRange n).filter fun a => state.topLevel a && decide (state.kind a = .access container)

/-- The containers with a top-level access, in the order of their first. -/
def containersOf (state : State n S) : List ℕ :=
  ((List.finRange n).filterMap fun a =>
    match state.kind a with
    | .access container => if state.topLevel a then some container else none
    | _ => none).eraseDups

/-- The dictionary a container starts with. -/
def startContainer (state : State n S) (container : ℕ) (p : Progress n S) : Work n S :=
  ⟨p.edges, p.skipped, fun a =>
    if a ∈ accessesOf state container then some (descendants p.edges a) else none⟩

def orderContainer (state : State n S) (p : Progress n S) (container : ℕ) : Progress n S :=
  let w := (pairsOf (accessesOf state container)).foldl (orderPair state.kind container)
    (startContainer state container p)
  ⟨w.edges, w.skipped⟩

/-- `order_state` -/
def orderState (intersects : S → S → Option Bool) (state : State n S) : Progress n S :=
  (containersOf state).foldl (orderContainer state) (orderWriters intersects state)

end StatementOrder

/-
# Ordering edges and what they connect

The dictionary of `order_state` stays exact with every ordering edge, so that no edge
closes a cycle.  The anchors of an access lie behind it or in front of it, so a pair of
accesses whose turn is not passed over is connected or reported.
-/

namespace StatementOrder

open Function

open Relation

variable {n : ℕ} {S : Type} {state : State n S} {kind : Fin n → Kind n} {container : ℕ}

/-! ## Paths -/

variable {a b : Fin n} {edges edges' : List (Edge n S)}

variable {edges : List (Edge n S)}

theorem mem_successors :
    b ∈ successors edges a ↔ Adjacent edges a b := by
  simp only [successors, mem_map, mem_filter, decide_eq_true_eq, Adjacent]
  constructor
  · rintro ⟨e, ⟨he, hsrc⟩, hdst⟩
    exact ⟨e, he, hsrc, hdst⟩
  · rintro ⟨e, he, hsrc, hdst⟩
    exact ⟨e, ⟨he, hsrc⟩, hdst⟩

/-- `descendants` finds every node that is reached. -/
theorem mem_descendants :
    b ∈ descendants edges a ↔ Leads edges a b := by
  rw [descendants, @Worklist.mem_close_iff _ _ _ _ (Adjacent edges)]
  · constructor
    · intro h
      induction h with
      | root hb => exact TransGen.single (mem_successors.1 hb)
      | step _ hedge ih => exact TransGen.tail ih hedge
    · intro h
      induction h with
      | single hedge => exact .root (mem_successors.2 hedge)
      | tail _ hedge ih => exact .step ih hedge
  · intro seen x y hxy
    by_cases hy : y ∈ seen
    · exact Or.inl hy
    · refine Or.inr (mem_filter.2 ⟨mem_successors.2 hxy, ?_⟩)
      simpa using hy
  · intro seen x y hy
    exact mem_successors.1 (mem_filter.1 hy).1

theorem Adjacent.mono (h : ∀ e ∈ edges, e ∈ edges')
    (a b : Fin n) : Adjacent edges a b → Adjacent edges' a b := by
  rintro ⟨e, he, hab⟩
  exact ⟨e, h e he, hab⟩

theorem Leads.mono (h : ∀ e ∈ edges, e ∈ edges')
    (hab : Leads edges a b) : Leads edges' a b :=
  TransGen.mono (Adjacent.mono h) _ _ hab

/-- From a node to another or the same. -/
abbrev Path (edges : List (Edge n S)) : Fin n → Fin n → Prop := ReflTransGen (Adjacent edges)

theorem path_iff :
    Path edges a b ↔ b = a ∨ Leads edges a b :=
  reflTransGen_iff_eq_or_transGen

theorem path_mono (h : ∀ e ∈ edges, e ∈ edges')
    (hab : Path edges a b) : Path edges' a b :=
  ReflTransGen.mono (Adjacent.mono h) _ _ hab

def Acyclic (edges : List (Edge n S)) : Prop := ∀ a, ¬ Leads edges a a

theorem inserts (edges : List (Edge n S)) (a b : Fin n) :
    EdgeInsertion.Inserts (Adjacent edges) (Adjacent (edges ++ [orderingEdge a b])) a b := by
  intro x y
  simp only [Adjacent, mem_append, mem_singleton]
  constructor
  · rintro ⟨e, he | rfl, hx, hy⟩
    · exact Or.inl ⟨e, he, hx, hy⟩
    · exact Or.inr ⟨hx.symm, hy.symm⟩
  · rintro (⟨e, he, hx, hy⟩ | ⟨rfl, rfl⟩)
    · exact ⟨e, Or.inl he, hx, hy⟩
    · exact ⟨orderingEdge x y, Or.inr rfl, rfl, rfl⟩

/-! ## Anchors -/

/-- The end of a scope is behind its start. -/
def Scoped (kind : Fin n → Kind n) (edges : List (Edge n S)) : Prop :=
  (∀ a x, kind a = .entry x → Path edges a x) ∧ ∀ a x, kind a = .exit x → Path edges x a

theorem Scoped.mono (hs : Scoped kind edges)
    (h : ∀ e ∈ edges, e ∈ edges') : Scoped kind edges' :=
  ⟨fun a x hx => path_mono h (hs.1 a x hx), fun a x hx => path_mono h (hs.2 a x hx)⟩

theorem path_completionAnchor (hs : Scoped kind edges) (a : Fin n) :
    Path edges a (completionAnchor kind a) := by
  rw [completionAnchor]
  split
  · exact hs.1 _ _ ‹_›
  · exact ReflTransGen.refl

theorem path_startAnchor (hs : Scoped kind edges) (a : Fin n) :
    Path edges (startAnchor kind a) a := by
  rw [startAnchor]
  split
  · exact hs.2 _ _ ‹_›
  · exact ReflTransGen.refl

variable {anchor : Fin n → Fin n} {neighbours : Fin n → List (Fin n)} {w : Work n S}
  {skipped skipped' : List (SkippedEdge n)}

/-- What holds of the anchors of the neighbours holds of all anchors of a node. -/
theorem forall_anchorsFrom
    {Q : Fin n → Fin n → Prop} (hrefl : ∀ a, Q a a)
    (hdeeper : ∀ a c x, c ∈ neighbours a → Q c x → Q a x)
    (hanchor : ∀ a c, c ∈ neighbours a → Q a (anchor c)) :
    ∀ fuel node seen, ∀ x ∈ (anchorsFrom kind anchor neighbours fuel node seen).1, Q node x := by
  intro fuel
  induction fuel with
  | zero =>
      intro node seen x hx
      obtain rfl : x = node := by simpa [anchorsFrom] using hx
      exact hrefl x
  | succ fuel ih =>
      intro node seen x hx
      rw [anchorsFrom] at hx
      have hfold : ∀ (l : List (Fin n)) (acc : List (Fin n) × List (Fin n)),
          (∀ c ∈ l, c ∈ neighbours node) → (∀ y ∈ acc.1, Q node y) →
          ∀ y ∈ (l.foldl (fun (acc : List (Fin n) × List (Fin n)) next =>
            if isAccess kind next then
              if next ∈ acc.2 then acc
              else
                let deeper := anchorsFrom kind anchor neighbours fuel next (next :: acc.2)
                (acc.1 ++ deeper.1, deeper.2)
            else (acc.1 ++ [anchor next], acc.2)) acc).1, Q node y := by
        intro l
        induction l with
        | nil => exact fun acc _ hacc => hacc
        | cons c cs ihl =>
            intro acc hl hacc
            have hc := hl c (by simp)
            apply ihl _ fun d hd => hl d (by simp [hd])
            dsimp only
            split_ifs with haccess hseen
            · exact hacc
            · intro y hy
              rcases mem_append.1 hy with hy | hy
              · exact hacc y hy
              · exact hdeeper node c y hc (ih c _ y hy)
            · intro y hy
              rcases mem_append.1 hy with hy | hy
              · exact hacc y hy
              · obtain rfl : y = anchor c := by simpa using hy
                exact hanchor node c hc
      dsimp only at hx
      split_ifs at hx with hempty
      · obtain rfl : x = node := by simpa using hx
        exact hrefl x
      · exact hfold (neighbours node) ([], seen) (fun c hc => hc) (by simp) x hx

theorem anchorsFrom_ne_nil
    (fuel : ℕ) (node : Fin n) (seen : List (Fin n)) :
    (anchorsFrom kind anchor neighbours fuel node seen).1 ≠ [] := by
  cases fuel with
  | zero => simp [anchorsFrom]
  | succ fuel =>
      rw [anchorsFrom]
      dsimp only
      split_ifs with hempty
      · simp
      · exact hempty

theorem loadAnchors_ne_nil (kind : Fin n → Kind n) (edges : List (Edge n S)) (node : Fin n) :
    loadAnchors kind edges node ≠ [] :=
  anchorsFrom_ne_nil n node [node]

theorem storeAnchors_ne_nil (kind : Fin n → Kind n) (edges : List (Edge n S)) (node : Fin n) :
    storeAnchors kind edges node ≠ [] :=
  anchorsFrom_ne_nil n node [node]

/-- Every anchor of a load is behind it. -/
theorem path_loadAnchors (hs : Scoped kind edges) (node : Fin n) :
    ∀ x ∈ loadAnchors kind edges node, Path edges node x := by
  apply forall_anchorsFrom (fun _ => ReflTransGen.refl)
  · intro a c x hc hcx
    exact ReflTransGen.head (mem_successors.1 hc) hcx
  · intro a c hc
    exact ReflTransGen.head (mem_successors.1 hc) (path_completionAnchor hs c)

/-- Every anchor of a store is in front of it. -/
theorem path_storeAnchors (hs : Scoped kind edges) (node : Fin n) :
    ∀ x ∈ storeAnchors kind edges node, Path edges x node := by
  have hedge : ∀ a c, c ∈ (edges.filter fun e => decide (e.dst = a)).map Edge.src →
      Adjacent edges c a := by
    intro a c hc
    simp only [mem_map, mem_filter, decide_eq_true_eq] at hc
    obtain ⟨e, ⟨he, hdst⟩, hsrc⟩ := hc
    exact ⟨e, he, hsrc, hdst⟩
  apply forall_anchorsFrom (Q := fun a x => Path edges x a) (fun _ => ReflTransGen.refl)
  · intro a c x hc hcx
    exact ReflTransGen.tail hcx (hedge a c hc)
  · intro a c hc
    exact ReflTransGen.tail (path_startAnchor hs c) (hedge a c hc)

/-! ## One edge -/

/-- The dictionary holds what is reached. -/
def Exact (w : Work n S) : Prop :=
  ∀ a known, w.reach a = some known → ∀ b, b ∈ known ↔ Leads w.edges a b

/-- What later steps keep: edges, reports and the keys of the dictionary. -/
structure Extends (w w' : Work n S) : Prop where
  edges : ∀ e ∈ w.edges, e ∈ w'.edges
  skipped : ∀ s ∈ w.skipped, s ∈ w'.skipped
  keys : ∀ a, (w.reach a).isSome → (w'.reach a).isSome

theorem Extends.refl (w : Work n S) : Extends w w := ⟨fun _ h => h, fun _ h => h, fun _ h => h⟩

theorem Extends.trans {u v w : Work n S} (h : Extends u v) (h' : Extends v w) : Extends u w :=
  ⟨fun e he => h'.edges e (h.edges e he), fun s hs => h'.skipped s (h.skipped s hs),
    fun a ha => h'.keys a (h.keys a ha)⟩

theorem fetch_spec (h : Exact w) (node : Fin n) :
    (∀ b, b ∈ (w.fetch node).1 ↔ Leads w.edges node b) ∧ (w.fetch node).2.edges = w.edges ∧
      (w.fetch node).2.skipped = w.skipped ∧ Exact (w.fetch node).2 ∧
      Extends w (w.fetch node).2 := by
  rw [Work.fetch]
  split
  · rename_i known hknown
    exact ⟨h node known hknown, rfl, rfl, h, Extends.refl w⟩
  · refine ⟨fun b => mem_descendants, rfl, rfl, ?_, fun _ he => he, fun _ hs => hs, ?_⟩
    · intro a known hknown b
      by_cases ha : a = node
      · subst ha
        have hk : update w.reach a (some (descendants w.edges a)) a = some known := hknown
        rw [update_self] at hk
        obtain rfl := Option.some.inj hk
        exact mem_descendants
      · exact h a known (hknown.symm.trans (update_of_ne ha _ _)).symm b
    · intro a ha
      show (update w.reach node _ a).isSome
      by_cases hn : a = node
      · subst hn
        rw [update_self]
        rfl
      · rw [update_of_ne hn]
        exact ha

/-- An ordering edge keeps the dictionary exact and the graph acyclic, and connects the
pair, or the pair is reported. -/
theorem orderEdge_spec (container : ℕ) (h : Exact w) (hacyclic : Acyclic w.edges)
    (pair : Fin n × Fin n) :
    Exact (orderEdge container w pair) ∧ Acyclic (orderEdge container w pair).edges ∧
      Extends w (orderEdge container w pair) ∧
      (Path (orderEdge container w pair).edges pair.1 pair.2 ∨
        ⟨container, pair.1, pair.2⟩ ∈ (orderEdge container w pair).skipped) := by
  obtain ⟨hsrc, he₁, hs₁, hx₁, hext₁⟩ := fetch_spec h pair.1
  obtain ⟨hdst, he₂, hs₂, hx₂, hext₂⟩ := fetch_spec hx₁ pair.2
  rw [he₁] at hdst he₂
  rw [orderEdge]
  split_ifs with heq
  · exact ⟨h, hacyclic, Extends.refl w, Or.inl (heq ▸ ReflTransGen.refl)⟩
  dsimp only
  split_ifs with hpath hback
  · refine ⟨hx₁, by rw [he₁]; exact hacyclic, hext₁, Or.inl ?_⟩
    rw [he₁]
    exact ((hsrc _).1 hpath).to_reflTransGen
  · refine ⟨fun a known hk b => hx₂ a known hk b, by rw [he₂]; exact hacyclic, ?_, ?_⟩
    · exact (hext₁.trans hext₂).trans
        ⟨fun _ he => he, fun s hs => mem_append_left _ hs, fun _ ha => ha⟩
    · exact Or.inr (mem_append_right _ (mem_singleton_self _))
  · have hins := inserts ((w.fetch pair.1).2.fetch pair.2).2.edges pair.1 pair.2
    have hnoback : ¬ Leads w.edges pair.2 pair.1 := fun hl => hback ((hdst _).2 hl)
    refine ⟨?_, ?_, ?_, ?_⟩
    · intro key known hknown b
      obtain ⟨old, hold, rfl⟩ := Option.map_eq_some_iff.1 hknown
      have hex := hx₂ key old hold
      show _ ↔ TransGen _ key b
      rw [EdgeInsertion.transGen_iff hins, he₂]
      rw [he₂] at hex
      have hreach : (key = pair.1 ∨ pair.1 ∈ old) ↔ Path w.edges key pair.1 := by
        rw [hex, path_iff]
        exact or_congr eq_comm Iff.rfl
      split_ifs with hcond
      · have hgain : b ∈ pair.2 :: ((w.fetch pair.1).2.fetch pair.2).1 ↔ Path w.edges pair.2 b := by
          rw [mem_cons, hdst, path_iff]
        rw [mem_append, hex, hgain]
        exact or_congr Iff.rfl (iff_and_self.2 fun _ => hreach.1 hcond)
      · rw [hex]
        constructor
        · exact Or.inl
        · rintro (hl | ⟨hp, -⟩)
          · exact hl
          · exact absurd (hreach.2 hp) hcond
    · exact EdgeInsertion.acyclic hins (by rw [he₂]; exact hacyclic) heq
        (by rw [he₂]; exact hnoback)
    · refine (hext₁.trans hext₂).trans ⟨fun e he => mem_append_left _ he, fun _ hs => hs, ?_⟩
      intro a ha
      show (Option.map _ _).isSome
      rw [Option.isSome_map]
      exact ha
    · refine Or.inl (ReflTransGen.single ?_)
      exact (hins pair.1 pair.2).2 (Or.inr ⟨rfl, rfl⟩)

theorem foldl_orderEdge_spec (container : ℕ) :
    ∀ (pairs : List (Fin n × Fin n)) {w : Work n S}, Exact w →
    Acyclic w.edges →
    Exact (pairs.foldl (orderEdge container) w) ∧
      Acyclic (pairs.foldl (orderEdge container) w).edges ∧
      Extends w (pairs.foldl (orderEdge container) w) ∧
      ∀ pair ∈ pairs, Path (pairs.foldl (orderEdge container) w).edges pair.1 pair.2 ∨
        ⟨container, pair.1, pair.2⟩ ∈ (pairs.foldl (orderEdge container) w).skipped := by
  intro pairs
  induction pairs with
  | nil => exact fun h hacyclic => ⟨h, hacyclic, Extends.refl _, by simp⟩
  | cons pair pairs ih =>
      intro w h hacyclic
      obtain ⟨h₁, ha₁, hext₁, hp₁⟩ := orderEdge_spec container h hacyclic pair
      obtain ⟨h₂, ha₂, hext₂, hp₂⟩ := ih h₁ ha₁
      refine ⟨h₂, ha₂, hext₁.trans hext₂, ?_⟩
      rw [forall_mem_cons]
      refine ⟨?_, hp₂⟩
      rcases hp₁ with hp | hs
      · exact Or.inl (path_mono hext₂.edges hp)
      · exact Or.inr (hext₂.skipped _ hs)

/-! ## Pairs -/

theorem mem_of_mem_pairsOf {α : Type} {l : List α} {a b : α} (h : (a, b) ∈ pairsOf l) :
    a ∈ l ∧ b ∈ l := by
  induction l with
  | nil => simp [pairsOf] at h
  | cons c cs ih =>
      rw [pairsOf, mem_append, mem_map] at h
      rcases h with ⟨d, hd, heq⟩ | h
      · obtain ⟨rfl, rfl⟩ := Prod.mk.inj heq
        exact ⟨mem_cons_self, mem_cons_of_mem _ hd⟩
      · exact ⟨mem_cons_of_mem _ (ih h).1, mem_cons_of_mem _ (ih h).2⟩

/-- In a sorted list two elements are a pair in their order. -/
theorem mem_pairsOf {α : Type} {r : α → α → Prop} {l : List α} (hl : l.Pairwise r) {a b : α}
    (ha : a ∈ l) (hb : b ∈ l) (hne : a ≠ b) (hba : ¬ r b a) : (a, b) ∈ pairsOf l := by
  induction l with
  | nil => simp at ha
  | cons c cs ih =>
      rw [pairsOf, mem_append, mem_map]
      rw [pairwise_cons] at hl
      rcases mem_cons.1 ha with rfl | hacs
      · rcases mem_cons.1 hb with rfl | hbcs
        · exact absurd rfl hne
        · exact Or.inl ⟨b, hbcs, rfl⟩
      · rcases mem_cons.1 hb with rfl | hbcs
        · exact absurd (hl.1 a hacs) hba
        · exact Or.inr (ih hl.2 hacs hbcs)

theorem isWritten_mono (h : ∀ e ∈ edges, e ∈ edges')
    {a : Fin n} (ha : isWritten edges a = true) : isWritten edges' a = true := by
  rw [isWritten, any_eq_true] at *
  obtain ⟨e, he, hdst⟩ := ha
  exact ⟨e, h e he, hdst⟩

/-- A skipped edge from behind the one access to in front of the other is reported. -/
def Reported (edges : List (Edge n S)) (skipped : List (SkippedEdge n)) (container : ℕ)
    (a b : Fin n) : Prop :=
  ∃ s ∈ skipped, s.container = container ∧ Path edges a s.src ∧ Path edges s.dst b

theorem Reported.mono
    (h : Reported edges skipped container a b) (he : ∀ e ∈ edges, e ∈ edges')
    (hs : ∀ s ∈ skipped, s ∈ skipped') : Reported edges' skipped' container a b := by
  obtain ⟨s, hmem, hc, hsrc, hdst⟩ := h
  exact ⟨s, hs s hmem, hc, path_mono he hsrc, path_mono he hdst⟩

/-- The pair is connected or reported. -/
def Settled (edges : List (Edge n S)) (skipped : List (SkippedEdge n)) (container : ℕ)
    (a b : Fin n) : Prop :=
  Path edges a b ∨ Reported edges skipped container a b

theorem Settled.mono
    (h : Settled edges skipped container a b) (he : ∀ e ∈ edges, e ∈ edges')
    (hs : ∀ s ∈ skipped, s ∈ skipped') : Settled edges' skipped' container a b := by
  rcases h with h | h
  · exact Or.inl (path_mono he h)
  · exact Or.inr (h.mono he hs)

theorem orderPair_spec (container : ℕ) (h : Exact w) (hacyclic : Acyclic w.edges)
    (hs : Scoped kind w.edges) (a b : Fin n) (ha : (w.reach a).isSome) (hb : (w.reach b).isSome) :
    Exact (orderPair kind container w (a, b)) ∧
      Acyclic (orderPair kind container w (a, b)).edges ∧
      Extends w (orderPair kind container w (a, b)) ∧
      (isWritten w.edges a = true ∨ isWritten w.edges b = true → ¬ Leads w.edges b a →
        Settled (orderPair kind container w (a, b)).edges
          (orderPair kind container w (a, b)).skipped container a b) := by
  obtain ⟨reachA, hreachA⟩ := Option.isSome_iff_exists.1 ha
  obtain ⟨reachB, hreachB⟩ := Option.isSome_iff_exists.1 hb
  rw [orderPair]
  simp only [hreachA, hreachB, Option.getD_some]
  split_ifs with hback hunwritten hwrites hforth
  · refine ⟨h, hacyclic, Extends.refl w, fun _ hno => ?_⟩
    exact absurd ((h b reachB hreachB a).1 hback) hno
  · refine ⟨h, hacyclic, Extends.refl w, fun hwritten _ => ?_⟩
    simp only [Bool.and_eq_true, Bool.not_eq_true'] at hunwritten
    rcases hwritten with hw | hw
    · exact absurd hw (by simp [hunwritten.1])
    · exact absurd hw (by simp [hunwritten.2])
  · obtain ⟨h', ha', hext, hpairs⟩ := foldl_orderEdge_spec container
      ((loadAnchors kind w.edges a).product (storeAnchors kind w.edges b)) h hacyclic
    refine ⟨h', ha', hext, fun _ _ => ?_⟩
    obtain ⟨src, hsrc⟩ := exists_mem_of_ne_nil _ (loadAnchors_ne_nil kind w.edges a)
    obtain ⟨dst, hdst⟩ := exists_mem_of_ne_nil _ (storeAnchors_ne_nil kind w.edges b)
    have hasrc := path_mono hext.edges (path_loadAnchors hs a src hsrc)
    have hdstb := path_mono hext.edges (path_storeAnchors hs b dst hdst)
    rcases hpairs (src, dst) (mem_product.2 ⟨hsrc, hdst⟩) with hp | hskip
    · exact Or.inl ((hasrc.trans hp).trans hdstb)
    · exact Or.inr ⟨_, hskip, rfl, hasrc, hdstb⟩
  · refine ⟨h, hacyclic, Extends.refl w, fun _ _ => Or.inl ?_⟩
    exact ((h a reachA hreachA b).1 hforth).to_reflTransGen
  · obtain ⟨h', ha', hext, hp⟩ := orderEdge_spec container h hacyclic (a, b)
    refine ⟨h', ha', hext, fun _ _ => ?_⟩
    rcases hp with hp | hskip
    · exact Or.inl hp
    · exact Or.inr ⟨_, hskip, rfl, ReflTransGen.refl, ReflTransGen.refl⟩

end StatementOrder
