/-
# The split keeps data and order

Node after node, the data edges move to the parts of their indices and the other
nodes keep reaching each other.  An edge that joins two access nodes of the array is
the one whose two ends the pass does not tell apart.
-/
import DaceFortran.Lib.Fallible
import DaceFortran.ArraySplit.SplitNode

open List

namespace ArraySplit

open Relation Collapse MemletSides

section

variable [MemletSides] {t : Target} {hasPath : HasPath} {kind : ℕ → Kind}

/-! ## The data edges -/

variable {e : Edge} {edges edges' : List Edge} {indices : List ℤ} {st : State}

variable {id v : ℕ} {ids : List ℕ} {sdfg : Sdfg} {m memlet : Memlet} {src dst : String}

/-- The data edges of a split node are the data edges there were, moved. -/
theorem splitNode_data
    (hpath : FindsPaths hasPath)
    (hsplit : splitNode t hasPath kind indices edges id = some edges')
    (hdata : e.memlet.isSome = true) :
    e ∈ edges' ↔ ∃ f ∈ edges, f.memlet.isSome = true ∧ e = moveEdge t kind id f := by
  obtain rfl : keepOrder hasPath (partEdges t kind id edges) (partsOf t kind id edges) =
      edges' := by
    rw [splitNode] at hsplit
    split at hsplit
    · exact Option.some.inj hsplit
    · cases hsplit
  obtain ⟨hkept, hadded, -⟩ := foldl_addOrder hpath
    (orderPairs (partEdges t kind id edges) (partsOf t kind id edges)) (partEdges t kind id edges)
  have hmem : e ∈ keepOrder hasPath (partEdges t kind id edges) (partsOf t kind id edges) ↔
      e ∈ partEdges t kind id edges := by
    constructor
    · intro h
      rcases hadded e h with h | ⟨pair, -, rfl⟩
      · exact h
      · cases hdata
    · exact hkept e
  rw [hmem, mem_partEdges]
  constructor
  · rintro (⟨he, hsrc, hdst⟩ | ⟨f, hf, rfl⟩ | ⟨b, -, p, -, rfl⟩ | ⟨-, b, -, a, -, rfl⟩ |
      ⟨a, -, p, -, rfl⟩)
    · exact ⟨e, he, hdata, (moveEdge_of_other hsrc hdst).symm⟩
    · exact ⟨f, (mem_movingEdges.mp hf).1, (mem_movingEdges.mp hf).2.2, rfl⟩
    all_goals cases hdata
  · rintro ⟨f, hf, hfdata, rfl⟩
    by_cases hends : f.dst = .orig id ∨ f.src = .orig id
    · exact .inr (.inl ⟨f, mem_movingEdges.mpr ⟨hf, hends, hfdata⟩, rfl⟩)
    · rw [not_or] at hends
      rw [moveEdge_of_other hends.2 hends.1]
      exact .inl ⟨hf, hends.2, hends.1⟩

/-- Only parts of the node are new. -/
theorem splitNode_fresh
    (hpath : FindsPaths hasPath)
    (hsplit : splitNode t hasPath kind indices edges id = some edges') (hv : v ≠ id)
    (hfresh : Fresh v edges) : Fresh v edges' := by
  obtain rfl : keepOrder hasPath (partEdges t kind id edges) (partsOf t kind id edges) =
      edges' := by
    rw [splitNode] at hsplit
    split at hsplit
    · exact Option.some.inj hsplit
    · cases hsplit
  have hpart : ∀ p ∈ partsOf t kind id edges, ∀ k, p ≠ .part v k := by
    intro p hp k h
    obtain ⟨f, -, hf⟩ := mem_partsOf.mp hp
    rw [h, partFor] at hf
    exact hv (by cases hf; rfl)
  have hends : ∀ e ∈ partEdges t kind id edges, ∀ k, e.src ≠ .part v k ∧ e.dst ≠ .part v k := by
    intro e he k
    have hafter : ∀ a ∈ afterEdges id edges, a.dst ≠ .part v k := fun a ha =>
      (hfresh a (mem_filter.mp ha).1 k).2
    have hbefore : ∀ b ∈ beforeEdges id edges, b.src ≠ .part v k := fun b hb =>
      (hfresh b (mem_filter.mp hb).1 k).1
    rcases mem_partEdges.mp he with ⟨he, -, -⟩ | ⟨f, hf, rfl⟩ | ⟨b, hb, p, hp, rfl⟩ |
      ⟨-, b, hb, a, ha, rfl⟩ | ⟨a, ha, p, hp, rfl⟩
    · exact hfresh e he k
    · obtain ⟨hmem, -, -⟩ := mem_movingEdges.mp hf
      have hnew := hpart _ (mem_partsOf.mpr ⟨f, hf, rfl⟩) k
      have hold := hfresh f hmem k
      rw [moveEdge]
      split
      · exact ⟨hold.1, hnew⟩
      · split
        · exact ⟨hnew, hold.2⟩
        · exact hold
    · exact ⟨hbefore b hb, hpart p hp k⟩
    · exact ⟨hbefore b hb, hafter a ha⟩
    · exact ⟨hpart p hp k, hafter a ha⟩
  intro e he k
  rcases (foldl_addOrder hpath _ _).2.1 e he with he | ⟨pair, hpair, rfl⟩
  · exact hends e he k
  obtain ⟨hpair1, -, other, hother, -, hcase⟩ := mem_orderPairs.mp hpair
  refine ⟨hpart _ hpair1 k, ?_⟩
  show pair.2 ≠ _
  rcases hcase with ⟨-, h⟩ | ⟨-, f, hf, -, -, h⟩
  · rw [h]
    exact hpart _ hother k
  · rw [← h]
    exact (hends f hf k).2

/-! ## All nodes -/

/-- The edge moved by one node after another. -/
def moveAll (t : Target) (kind : ℕ → Kind) (ids : List ℕ) (e : Edge) : Edge :=
  ids.foldl (fun e id => moveEdge t kind id e) e

/-- **Splitting every access node**: no cycle closes, the nodes that are not split reach
each other as before, and the data edges are those there were, moved. -/
theorem foldlM_splitNode (hpath : FindsPaths hasPath) (ids : List ℕ)
    (hnodup : ids.Nodup) (hfresh : ∀ id ∈ ids, Fresh id edges)
    (hacyclic : ∀ a, ¬ TransGen (Adjacent edges) a a)
    (hsplit : ids.foldlM (splitNode t hasPath kind indices) edges = some edges') :
    (∀ a, ¬ TransGen (Adjacent edges') a a) ∧
    (∀ a b, a ∉ ids → b ∉ ids →
      (TransGen (Adjacent edges) (.orig a) (.orig b) ↔
        TransGen (Adjacent edges') (.orig a) (.orig b))) ∧
    ∀ e, e.memlet.isSome = true →
      (e ∈ edges' ↔ ∃ f ∈ edges, f.memlet.isSome = true ∧ e = moveAll t kind ids f) := by
  induction ids generalizing edges with
  | nil =>
    cases hsplit
    refine ⟨hacyclic, fun a b _ _ => Iff.rfl, fun e he => ⟨fun h => ⟨e, h, he, rfl⟩, ?_⟩⟩
    rintro ⟨f, hf, -, rfl⟩
    exact hf
  | cons id ids ih =>
    rw [foldlM_cons] at hsplit
    obtain ⟨middle, hmiddle, hrest⟩ := Option.bind_eq_some_iff.mp hsplit
    rw [nodup_cons] at hnodup
    obtain ⟨hacyclic', hreach'⟩ := splitNode_order hpath (hfresh id mem_cons_self) hacyclic hmiddle
    have hfresh' : ∀ v ∈ ids, Fresh v middle := fun v hv =>
      splitNode_fresh hpath hmiddle (fun h => hnodup.1 (h ▸ hv))
        (hfresh v (mem_cons_of_mem _ hv))
    obtain ⟨hacyclic'', hreach'', hdata''⟩ := ih hnodup.2 hfresh' hacyclic' hrest
    refine ⟨hacyclic'', fun a b ha hb => ?_, fun e he => ?_⟩
    · rw [mem_cons, not_or] at ha hb
      rw [hreach' (.orig a) (.orig b) (by simpa using ha.1) (by simpa using hb.1)
        (by simp) (by simp),
        hreach'' a b ha.2 hb.2]
    · rw [hdata'' e he]
      constructor
      · rintro ⟨f, hf, hfdata, rfl⟩
        obtain ⟨g, hg, hgdata, rfl⟩ := (splitNode_data hpath hmiddle hfdata).mp hf
        exact ⟨g, hg, hgdata, rfl⟩
      · rintro ⟨g, hg, hgdata, rfl⟩
        have hmoved : (moveEdge t kind id g).memlet.isSome = true := by rw [isSome_moveEdge, hgdata]
        exact ⟨_, (splitNode_data hpath hmiddle hmoved).mpr ⟨g, hg, hgdata, rfl⟩, hmoved, rfl⟩

/-! ## What the split should do -/

/-- The node an end of a data edge becomes: at an access node of the array, the part of
the index the edge has there. -/
def endPart (t : Target) (kind : ℕ → Kind) (n : Node) (subset : Option (List Dim)) : Option Node :=
  match n with
  | .orig id =>
      if isArray t kind (.orig id) then (subset.bind (constant t)).map (Node.part id)
      else some (.orig id)
  | .part id k => some (.part id k)

/-- The memlet of a data edge: every subset on the array is of its index's array, without
the split dimension; the other subset is on it where the data is another array or both
ends are nodes of the array. -/
def splitMemlet (t : Target) (kind : ℕ → Kind) (e : Edge) (m : Memlet) : Memlet :=
  let onOther := if m.data = t.name then isArray t kind e.src && isArray t kind e.dst
    else isArray t kind e.src || isArray t kind e.dst
  { m with
    data := if m.data = t.name then partName t ((constant t m.subset).getD 0) else m.data
    subset := if m.data = t.name then without t m.subset else m.subset
    other := if onOther then m.other.map (without t) else m.other }

/-- What a data edge should become; none where an index of the array is not known. -/
def splitEdge (t : Target) (kind : ℕ → Kind) (e : Edge) : Option Edge := do
  let m ← e.memlet
  let src ← endPart t kind e.src (srcSubset kind e m)
  let dst ← endPart t kind e.dst (dstSubset kind e m)
  some { e with src := src, dst := dst, memlet := some (splitMemlet t kind e m) }

/-- The split of a state keeps data and order. -/
structure KeepsState (t : Target) (st : State) (edges' : List Edge) : Prop where
  /-- Every access becomes the one to the array of its index. -/
  accesses : ∀ e ∈ st.edges, e.memlet.isSome = true →
    ∃ e', splitEdge t st.kind e = some e' ∧ e' ∈ edges'
  /-- There are no others. -/
  only : ∀ e' ∈ edges', e'.memlet.isSome = true →
    ∃ e ∈ st.edges, e.memlet.isSome = true ∧ splitEdge t st.kind e = some e'
  /-- What an edge brings to a node of the array comes before what another takes on. -/
  through : ∀ e ∈ st.edges, ∀ f ∈ st.edges, e.dst = f.src → isArray t st.kind e.dst = true →
    isArray t st.kind e.src = false → isArray t st.kind f.dst = false →
    TransGen (Adjacent edges') e.src f.dst
  /-- The other nodes are ordered as before. -/
  order : ∀ a b, isArray t st.kind (.orig a) = false → isArray t st.kind (.orig b) = false →
    (TransGen (Adjacent st.edges) (.orig a) (.orig b) ↔
      TransGen (Adjacent edges') (.orig a) (.orig b))
  acyclic : ∀ a, ¬ TransGen (Adjacent edges') a a

/-- A state as the pass may get it. -/
structure WellFormed (t : Target) (st : State) : Prop where
  nodup : st.nodes.Nodup
  ends : ∀ e ∈ st.edges, ∃ a b, e.src = .orig a ∧ e.dst = .orig b ∧ a ∈ st.nodes ∧ b ∈ st.nodes
  acyclic : ∀ a, ¬ TransGen (Adjacent st.edges) a a
  /-- At the one access node of the array an edge has, its memlet's subset is on it where the
  memlet's data is the array, and the other subset is where it is not. -/
  atSrc : ∀ e ∈ st.edges, ∀ m, e.memlet = some m → isArray t st.kind e.src = true →
    isArray t st.kind e.dst = false →
      srcSubset st.kind e m = if m.data = t.name then some m.subset else m.other
  atDst : ∀ e ∈ st.edges, ∀ m, e.memlet = some m → isArray t st.kind e.dst = true →
    isArray t st.kind e.src = false →
      dstSubset st.kind e m = if m.data = t.name then some m.subset else m.other
  /-- Between two of them the data is the array, each end has one of the two subsets, and both
  have the array's rank. -/
  atBoth : ∀ e ∈ st.edges, ∀ m, e.memlet = some m → isArray t st.kind e.src = true →
    isArray t st.kind e.dst = true → m.data = t.name ∧
      (srcSubset st.kind e m = m.other ∨ dstSubset st.kind e m = m.other) ∧
      ∀ o, m.other = some o → o.length = t.rank

/-- No data edge joins two access nodes of the array. -/
def NoSelfCopy (t : Target) (st : State) : Prop :=
  ∀ e ∈ st.edges, e.memlet.isSome = true →
    ¬ (isArray t st.kind e.src = true ∧ isArray t st.kind e.dst = true)

/-! ## Moving the edges of all nodes -/

theorem moveAll_of_other (ids : List ℕ)
    (hsrc : ∀ id ∈ ids, e.src ≠ .orig id) (hdst : ∀ id ∈ ids, e.dst ≠ .orig id) :
    moveAll t kind ids e = e := by
  induction ids with
  | nil => rfl
  | cons id ids ih =>
    rw [moveAll, foldl_cons, moveEdge_of_other (hsrc id mem_cons_self)
      (hdst id mem_cons_self)]
    exact ih (fun v hv => hsrc v (mem_cons_of_mem _ hv))
      (fun v hv => hdst v (mem_cons_of_mem _ hv))

theorem moveAll_of_src {u : ℕ} (hu : u ∈ ids) (hsrc : e.src = .orig u)
    (hdst : ∀ id ∈ ids, e.dst ≠ .orig id) :
    moveAll t kind ids e
      = { e with src := partFor t kind u e, memlet := e.memlet.map (moveMemlet t) } := by
  induction ids with
  | nil => cases hu
  | cons id ids ih =>
    have hdst' : ∀ v ∈ ids, e.dst ≠ .orig v := fun v hv => hdst v (mem_cons_of_mem _ hv)
    rw [moveAll, foldl_cons]
    by_cases hid : id = u
    · subst hid
      rw [moveEdge_of_src hsrc (hdst id mem_cons_self)]
      exact moveAll_of_other ids (fun v _ => by simp [partFor]) hdst'
    · rw [moveEdge_of_other (by rw [hsrc]; simpa using Ne.symm hid) (hdst id mem_cons_self)]
      exact ih ((mem_cons.mp hu).resolve_left (Ne.symm hid)) hdst'

theorem moveAll_of_dst (hv : v ∈ ids) (hdst : e.dst = .orig v)
    (hsrc : ∀ id ∈ ids, e.src ≠ .orig id) :
    moveAll t kind ids e
      = { e with dst := partFor t kind v e, memlet := e.memlet.map (moveMemlet t) } := by
  induction ids with
  | nil => cases hv
  | cons id ids ih =>
    have hsrc' : ∀ u ∈ ids, e.src ≠ .orig u := fun u hu => hsrc u (mem_cons_of_mem _ hu)
    rw [moveAll, foldl_cons]
    by_cases hid : id = v
    · subst hid
      rw [moveEdge_of_dst hdst]
      exact moveAll_of_other ids hsrc' (fun u _ => by simp [partFor])
    · rw [moveEdge_of_other (hsrc id mem_cons_self) (by rw [hdst]; simpa using Ne.symm hid)]
      exact ih ((mem_cons.mp hv).resolve_left (Ne.symm hid)) hsrc'

/-- Moving an edge leaves the array of its memlet, and the subset of that. -/
theorem moveAll_memlet (ids : List ℕ) {e : Edge} {m : Memlet} (hm : e.memlet = some m) :
    ∃ m', (moveAll t kind ids e).memlet = some m' ∧ m'.data = m.data ∧ m'.subset = m.subset := by
  induction ids generalizing e m with
  | nil => exact ⟨m, hm, rfl, rfl⟩
  | cons id ids ih =>
    have hmove : ∃ m', (moveEdge t kind id e).memlet = some m' ∧ m'.data = m.data ∧
        m'.subset = m.subset := by
      have hkept : (moveMemlet t m).data = m.data ∧ (moveMemlet t m).subset = m.subset := by
        rw [moveMemlet]
        split <;> exact ⟨rfl, rfl⟩
      rw [moveEdge]
      split
      · exact ⟨_, by simp [hm], hkept⟩
      · split
        · exact ⟨_, by simp [hm], hkept⟩
        · exact ⟨m, hm, rfl, rfl⟩
    obtain ⟨m₁, hm₁, hdata₁, hsubset₁⟩ := hmove
    obtain ⟨m₂, hm₂, hdata₂, hsubset₂⟩ := ih hm₁
    exact ⟨m₂, hm₂, hdata₂.trans hdata₁, hsubset₂.trans hsubset₁⟩

/-- The final renaming of an edge. -/
def renameEdge (t : Target) (e : Edge) : Edge := { e with memlet := e.memlet.map (renameMemlet t) }

omit [MemletSides] in
theorem mem_arrayNodes :
    id ∈ arrayNodes t st ↔ id ∈ st.nodes ∧ isArray t st.kind (.orig id) = true := by
  simp [arrayNodes]

/-- **An edge at one access node at most becomes what it should.** -/
theorem renameEdge_moveAll (hwf : WellFormed t st) (he : e ∈ st.edges)
    (hdata : e.memlet.isSome = true)
    (hone : ¬ (isArray t st.kind e.src = true ∧ isArray t st.kind e.dst = true))
    (hindex : isArray t st.kind e.src = true ∨ isArray t st.kind e.dst = true →
      (indexOf t st.kind e).isSome = true) :
    splitEdge t st.kind e = some (renameEdge t (moveAll t st.kind (arrayNodes t st) e)) := by
  obtain ⟨a, b, hsrc, hdst, ha, hb⟩ := hwf.ends e he
  obtain ⟨m, hm⟩ := Option.isSome_iff_exists.mp hdata
  have hne : ∀ {n : Node} {c : ℕ}, n = .orig c → isArray t st.kind n = false →
      ∀ id ∈ arrayNodes t st, n ≠ .orig id := by
    intro n c hn hnot id hid h
    rw [h, (mem_arrayNodes.mp hid).2] at hnot
    cases hnot
  -- the end at the array moves, the other one stays
  cases hasrc : isArray t st.kind e.src with
  | true =>
    have hadst : isArray t st.kind e.dst = false := by
      cases h : isArray t st.kind e.dst with
      | true => exact absurd ⟨hasrc, h⟩ hone
      | false => rfl
    obtain ⟨k, hk⟩ := Option.isSome_iff_exists.mp (hindex (.inl hasrc))
    rw [moveAll_of_src (mem_arrayNodes.mpr ⟨ha, hsrc ▸ hasrc⟩) hsrc (hne hdst hadst)]
    have hconst : (srcSubset st.kind e m).bind (constant t) = some k := by
      rw [indexOf, hm] at hk
      simp only [subsetOf, hasrc, if_true] at hk
      cases hs : srcSubset st.kind e m with
      | none => simp [hs, Touch.of] at hk
      | some s => simpa [hs, Touch.of] using hk
    have hpart : endPart t st.kind e.src (srcSubset st.kind e m) =
        some (partFor t st.kind a e) := by
      rw [hsrc] at hasrc ⊢
      simp [endPart, hasrc, hconst, partFor, hk]
    have hother : endPart t st.kind e.dst (dstSubset st.kind e m) = some e.dst := by
      rw [hdst] at hadst ⊢
      simp [endPart, hadst]
    simp only [splitEdge, hm, hpart, hother, Option.bind_eq_bind, Option.bind_some, renameEdge,
      Option.map_some]
    congr 3
    by_cases hname : m.data = t.name
    · simp [splitMemlet, moveMemlet, renameMemlet, hasrc, hadst, hname]
    · simp [splitMemlet, moveMemlet, renameMemlet, hasrc, hname]
  | false =>
    cases hadst : isArray t st.kind e.dst with
    | true =>
      obtain ⟨k, hk⟩ := Option.isSome_iff_exists.mp (hindex (.inr hadst))
      rw [moveAll_of_dst (mem_arrayNodes.mpr ⟨hb, hdst ▸ hadst⟩) hdst (hne hsrc hasrc)]
      have hconst : (dstSubset st.kind e m).bind (constant t) = some k := by
        rw [indexOf, hm] at hk
        simp only [subsetOf, hasrc, hadst, if_true] at hk
        cases hs : dstSubset st.kind e m with
        | none => simp [hs, Touch.of] at hk
        | some s => simpa [hs, Touch.of] using hk
      have hpart : endPart t st.kind e.dst (dstSubset st.kind e m) =
          some (partFor t st.kind b e) := by
        rw [hdst] at hadst ⊢
        simp [endPart, hadst, hconst, partFor, hk]
      have hother : endPart t st.kind e.src (srcSubset st.kind e m) = some e.src := by
        rw [hsrc] at hasrc ⊢
        simp [endPart, hasrc]
      simp only [splitEdge, hm, hpart, hother, Option.bind_eq_bind, Option.bind_some, renameEdge,
        Option.map_some]
      congr 3
      by_cases hname : m.data = t.name
      · simp [splitMemlet, moveMemlet, renameMemlet, hasrc, hname]
      · simp [splitMemlet, moveMemlet, renameMemlet, hasrc, hadst, hname]
    | false =>
      rw [moveAll_of_other _ (hne hsrc hasrc) (hne hdst hadst)]
      have hs : endPart t st.kind e.src (srcSubset st.kind e m) = some e.src := by
        rw [hsrc] at hasrc ⊢
        simp [endPart, hasrc]
      have hd : endPart t st.kind e.dst (dstSubset st.kind e m) = some e.dst := by
        rw [hdst] at hadst ⊢
        simp [endPart, hadst]
      simp only [splitEdge, hm, hs, hd, Option.bind_eq_bind, Option.bind_some, renameEdge,
        Option.map_some]
      congr 2
      by_cases hname : m.data = t.name
      · simp [splitMemlet, renameMemlet, hasrc, hadst, hname]
      · simp [splitMemlet, renameMemlet, hasrc, hadst, hname]

/-! ## The lookups succeed -/

/-- Every data edge is at one access node at most, and has an index the names know there. -/
def Indexed (t : Target) (kind : ℕ → Kind) (indices : List ℤ) (edges : List Edge) : Prop :=
  ∀ e ∈ edges, e.memlet.isSome = true →
    ¬ (isArray t kind e.src = true ∧ isArray t kind e.dst = true) ∧
    (isArray t kind e.src = true ∨ isArray t kind e.dst = true →
      ∃ k ∈ indices, indexOf t kind e = some k)

theorem splitNode_isSome {indices : List ℤ} {edges : List Edge}
    (hindexed : Indexed t kind indices edges) {id : ℕ} (hid : isArray t kind (.orig id) = true) :
    ∃ edges', splitNode t hasPath kind indices edges id = some edges' := by
  refine ⟨_, if_pos ?_⟩
  rw [all_eq_true]
  intro e he
  obtain ⟨hmem, hends, hdata⟩ := mem_movingEdges.mp he
  obtain ⟨k, hk, hindex⟩ := (hindexed e hmem hdata).2 (by
    rcases hends with h | h
    · exact .inr (h ▸ hid)
    · exact .inl (h ▸ hid))
  simpa [hindex] using hk

/-- An edge that moved is at no access node of the array any more. -/
theorem Indexed.splitNode
    (hpath : FindsPaths hasPath) (hindexed : Indexed t kind indices edges)
    (hid : isArray t kind (.orig id) = true)
    (hsplit : splitNode t hasPath kind indices edges id = some edges') :
    Indexed t kind indices edges' := by
  intro e he hdata
  obtain ⟨f, hf, hfdata, rfl⟩ := (splitNode_data hpath hsplit hdata).mp he
  obtain ⟨hone, hindex⟩ := hindexed f hf hfdata
  by_cases hdst : f.dst = .orig id
  · rw [moveEdge_of_dst hdst]
    have hsrc : isArray t kind f.src = false := by
      cases h : isArray t kind f.src with
      | true => exact absurd ⟨h, hdst ▸ hid⟩ hone
      | false => rfl
    show ¬ (isArray t kind f.src = true ∧ isArray t kind (partFor t kind id f) = true) ∧
      (isArray t kind f.src = true ∨ isArray t kind (partFor t kind id f) = true → _)
    rw [hsrc, show isArray t kind (partFor t kind id f) = false from rfl]
    simp
  · by_cases hsrc : f.src = .orig id
    · rw [moveEdge_of_src hsrc hdst]
      have hdst' : isArray t kind f.dst = false := by
        cases h : isArray t kind f.dst with
        | true => exact absurd ⟨hsrc ▸ hid, h⟩ hone
        | false => rfl
      show ¬ (isArray t kind (partFor t kind id f) = true ∧ isArray t kind f.dst = true) ∧
        (isArray t kind (partFor t kind id f) = true ∨ isArray t kind f.dst = true → _)
      rw [hdst', show isArray t kind (partFor t kind id f) = false from rfl]
      simp
    · rw [moveEdge_of_other hsrc hdst]
      exact ⟨hone, hindex⟩

theorem foldlM_splitNode_isSome (hpath : FindsPaths hasPath) (ids : List ℕ)
    (hids : ∀ id ∈ ids, isArray t kind (.orig id) = true) {edges : List Edge}
    (hindexed : Indexed t kind indices edges) :
    ∃ edges', ids.foldlM (splitNode t hasPath kind indices) edges = some edges' := by
  induction ids generalizing edges with
  | nil => exact ⟨edges, rfl⟩
  | cons id ids ih =>
    have hid := hids id mem_cons_self
    obtain ⟨middle, hmiddle⟩ := @splitNode_isSome _ _ hasPath _ _ _ hindexed _ hid
    obtain ⟨edges', hedges'⟩ := ih (fun v hv => hids v (mem_cons_of_mem _ hv))
      (hindexed.splitNode hpath hid hmiddle)
    refine ⟨edges', ?_⟩
    rw [foldlM_cons]
    exact Option.bind_eq_some_iff.mpr ⟨middle, hmiddle, hedges'⟩

/-- The indices the pass found are those of every edge that touches the array. -/
theorem mem_constantIndices
    (h : constantIndices t sdfg = some indices) (hst : st ∈ sdfg.states)
    (he : e ∈ st.edges) (htouch : touches t st.kind e = true) :
    ∃ k ∈ indices, indexOf t st.kind e = some k := by
  rw [constantIndices] at h
  split at h
  · cases h
  split at h
  · cases h
  next hall =>
  split at h
  · cases h
  obtain rfl := Option.some.inj h
  have hsome : (indexOf t st.kind e).isSome = true := by
    by_contra hnone
    apply hall
    rw [any_eq_true]
    refine ⟨st, hst, any_eq_true.mpr ⟨e, he, ?_⟩⟩
    rw [htouch, Bool.true_and]
    simpa using hnone
  obtain ⟨k, hk⟩ := Option.isSome_iff_exists.mp hsome
  refine ⟨k, ?_, hk⟩
  rw [mem_dedup, mem_flatMap]
  exact ⟨st, hst, mem_filterMap.mpr ⟨e, he, hk⟩⟩

/-- An edge at an access node of the array, or of its memlets, touches it. -/
theorem touches_iff (hm : e.memlet = some m) :
    touches t kind e = true ↔
      isArray t kind e.src = true ∨ isArray t kind e.dst = true ∨ m.data = t.name := by
  have hof : ∀ s, Touch.of s ≠ .nothing := by
    rintro (_ | _) h <;> cases h
  simp only [touches, hm, subsetOf, ne_eq]
  split
  · simp [*]
  · split
    · simp [*]
    · split <;> simp [*]

/-- The index of an edge whose memlet names the array is that of its subset. -/
theorem indexOf_of_data (hwf : WellFormed t st) (hcopy : NoSelfCopy t st)
    (he : e ∈ st.edges) (hm : e.memlet = some m) (hname : m.data = t.name) :
    indexOf t st.kind e = constant t m.subset := by
  have hone := hcopy e he (by rw [hm]; rfl)
  cases hsrc : isArray t st.kind e.src with
  | true =>
    have hdst : isArray t st.kind e.dst = false := by
      cases h : isArray t st.kind e.dst with
      | true => exact absurd ⟨hsrc, h⟩ hone
      | false => rfl
    have hside := (hwf.atSrc e he m hm hsrc hdst).trans (if_pos hname)
    simp [indexOf, hm, subsetOf, hsrc, hside, Touch.of]
  | false =>
    cases hdst : isArray t st.kind e.dst with
    | true =>
      have hside := (hwf.atDst e he m hm hdst hsrc).trans (if_pos hname)
      simp [indexOf, hm, subsetOf, hsrc, hdst, hside, Touch.of]
    | false => simp [indexOf, hm, subsetOf, hsrc, hdst, hname]

/-! ## A state -/

/-- **The split of a state keeps data and order** when no data edge joins two access nodes. -/
theorem splitState_keeps (hpath : FindsPaths hasPath)
    (hindices : constantIndices t sdfg = some indices) (hst : st ∈ sdfg.states)
    (hwf : WellFormed t st) (hcopy : NoSelfCopy t st) :
    ∃ edges', splitState t hasPath indices st = some edges' ∧ KeepsState t st edges' := by
  have hindex : ∀ e ∈ st.edges, e.memlet.isSome = true →
      isArray t st.kind e.src = true ∨ isArray t st.kind e.dst = true →
      ∃ k ∈ indices, indexOf t st.kind e = some k := by
    intro e he hdata hends
    obtain ⟨m, hm⟩ := Option.isSome_iff_exists.mp hdata
    apply mem_constantIndices hindices hst he
    rw [touches_iff hm, ← or_assoc]
    exact .inl hends
  have hindexed : Indexed t st.kind indices st.edges := fun e he hdata =>
    ⟨hcopy e he hdata, hindex e he hdata⟩
  have hids : ∀ id ∈ arrayNodes t st, isArray t st.kind (.orig id) = true := fun id hid =>
    (mem_arrayNodes.mp hid).2
  have hfresh : ∀ id ∈ arrayNodes t st, Fresh id st.edges := by
    intro id _ e he k
    obtain ⟨a, b, hsrc, hdst, -, -⟩ := hwf.ends e he
    rw [hsrc, hdst]
    simp
  -- first the nodes are split, one after the other, then the edges left are renamed
  obtain ⟨edges, hedges⟩ := foldlM_splitNode_isSome hpath (arrayNodes t st) hids hindexed
  obtain ⟨hacyclic, horder, hmoved⟩ := foldlM_splitNode hpath (arrayNodes t st)
    (hwf.nodup.filter _) hfresh hwf.acyclic hedges
  have hbecomes : ∀ e ∈ st.edges, e.memlet.isSome = true →
      splitEdge t st.kind e = some (renameEdge t (moveAll t st.kind (arrayNodes t st) e)) := by
    intro e he hdata
    refine renameEdge_moveAll hwf he hdata (hcopy e he hdata) fun hends => ?_
    obtain ⟨k, -, hk⟩ := hindex e he hdata hends
    simp [hk]
  have hrename : renamable t indices edges = true := by
    rw [renamable, all_eq_true]
    intro e he
    cases hm : e.memlet with
    | none => rfl
    | some m =>
      obtain ⟨f, hf, hfdata, rfl⟩ := (hmoved e (by rw [hm]; rfl)).mp he
      obtain ⟨m₀, hm₀⟩ := Option.isSome_iff_exists.mp hfdata
      obtain ⟨m', hm', hname', hsubset'⟩ := @moveAll_memlet _ t st.kind
        (arrayNodes t st) _ _ hm₀
      obtain rfl : m' = m := Option.some.inj (hm'.symm.trans hm)
      by_cases hname : m'.data = t.name
      · obtain ⟨k, hk, hindexf⟩ := mem_constantIndices hindices hst hf
          ((touches_iff hm₀).mpr (.inr (.inr (hname' ▸ hname))))
        rw [indexOf_of_data hwf hcopy hf hm₀ (hname' ▸ hname), ← hsubset'] at hindexf
        simp [hindexf, hk]
      · simp [hname]
  -- renaming changes no end of an edge
  have hadjacent : ∀ a b, Adjacent (edges.map (renameEdge t)) a b ↔ Adjacent edges a b := by
    intro a b
    constructor
    · rintro ⟨e, he, hsrc, hdst⟩
      obtain ⟨f, hf, rfl⟩ := mem_map.mp he
      exact ⟨f, hf, hsrc, hdst⟩
    · rintro ⟨f, hf, hsrc, hdst⟩
      exact ⟨_, mem_map_of_mem hf, hsrc, hdst⟩
  have hsame : Adjacent (edges.map (renameEdge t)) = Adjacent edges := by
    funext a b
    exact propext (hadjacent a b)
  refine ⟨edges.map (renameEdge t), ?_, ?_⟩
  · rw [splitState]
    refine Option.bind_eq_some_iff.mpr ⟨edges, hedges, ?_⟩
    rw [if_pos hrename]
    rfl
  have hwayOut : ∀ a b, isArray t st.kind (.orig a) = false → isArray t st.kind (.orig b) = false →
      (TransGen (Adjacent st.edges) (.orig a) (.orig b) ↔
        TransGen (Adjacent (edges.map (renameEdge t))) (.orig a) (.orig b)) := by
    intro a b ha hb
    rw [hsame]
    exact horder a b (fun h => by rw [hids a h] at ha; cases ha)
      (fun h => by rw [hids b h] at hb; cases hb)
  refine ⟨?_, ?_, ?_, hwayOut, by rw [hsame]; exact hacyclic⟩
  · intro e he hdata
    refine ⟨_, hbecomes e he hdata, mem_map_of_mem ?_⟩
    have hdata' : (moveAll t st.kind (arrayNodes t st) e).memlet.isSome = true := by
      obtain ⟨m, hm⟩ := Option.isSome_iff_exists.mp hdata
      obtain ⟨m', hm', -, -⟩ := @moveAll_memlet _ t st.kind (arrayNodes t st) _ _ hm
      rw [hm']
      rfl
    exact (hmoved _ hdata').mpr ⟨e, he, hdata, rfl⟩
  · intro e' he' hdata
    obtain ⟨f, hf, rfl⟩ := mem_map.mp he'
    have hfdata : f.memlet.isSome = true := by simpa [renameEdge] using hdata
    obtain ⟨e, he, hedata, rfl⟩ := (hmoved f hfdata).mp hf
    exact ⟨e, he, hedata, hbecomes e he hedata⟩
  · intro e he f hf hmid _ hsrc hdst
    obtain ⟨a, b, hea, heb, -, -⟩ := hwf.ends e he
    obtain ⟨b', c, hfb, hfc, -, -⟩ := hwf.ends f hf
    rw [hea] at hsrc ⊢
    rw [hfc] at hdst ⊢
    refine (hwayOut a c hsrc hdst).mp ?_
    exact .tail (.single ⟨e, he, hea, rfl⟩) ⟨f, hf, hmid.symm, hfc⟩

/-! ## An edge between two access nodes -/

theorem moveAll_src (ids : List ℕ) (h : ∀ id ∈ ids, e.src ≠ .orig id) :
    (moveAll t kind ids e).src = e.src := by
  induction ids generalizing e with
  | nil => rfl
  | cons id ids ih =>
    have hhead : (moveEdge t kind id e).src = e.src := by
      rw [moveEdge]
      split
      · rfl
      · exact if_neg (h id mem_cons_self) ▸ rfl
    rw [moveAll, foldl_cons]
    refine (ih fun v hv => ?_).trans hhead
    rw [hhead]
    exact h v (mem_cons_of_mem _ hv)

theorem moveAll_dst (ids : List ℕ) (h : ∀ id ∈ ids, e.dst ≠ .orig id) :
    (moveAll t kind ids e).dst = e.dst := by
  induction ids generalizing e with
  | nil => rfl
  | cons id ids ih =>
    have hhead : (moveEdge t kind id e).dst = e.dst := by
      rw [moveEdge, if_neg (h id mem_cons_self)]
      split <;> rfl
    rw [moveAll, foldl_cons]
    refine (ih fun v hv => ?_).trans hhead
    rw [hhead]
    exact h v (mem_cons_of_mem _ hv)

/-- A memlet naming the array keeps its other subset. -/
theorem moveAll_memlet_of_data (ids : List ℕ) (hm : e.memlet = some m)
    (hname : m.data = t.name) : (moveAll t kind ids e).memlet = some m := by
  induction ids generalizing e with
  | nil => exact hm
  | cons id ids ih =>
    have hmove : moveMemlet t m = m := by simp [moveMemlet, hname]
    rw [moveAll, foldl_cons]
    apply ih
    rw [moveEdge]
    split
    · simp [hm, hmove]
    · split
      · simp [hm, hmove]
      · exact hm

theorem splitEdge_eq_some {e e' : Edge} :
    splitEdge t kind e = some e' ↔
      ∃ m src dst, e.memlet = some m ∧ endPart t kind e.src (srcSubset kind e m) = some src ∧
        endPart t kind e.dst (dstSubset kind e m) = some dst ∧
        e' = ⟨src, e.srcConn, dst, e.dstConn, some (splitMemlet t kind e m)⟩ := by
  constructor
  · intro h
    obtain ⟨m, hm, h⟩ := Option.bind_eq_some_iff.mp h
    obtain ⟨src, hsrc, h⟩ := Option.bind_eq_some_iff.mp h
    obtain ⟨dst, hdst, h⟩ := Option.bind_eq_some_iff.mp h
    exact ⟨m, src, dst, hm, hsrc, hdst, (Option.some.inj h).symm⟩
  · rintro ⟨m, src, dst, hm, hsrc, hdst, rfl⟩
    exact Option.bind_eq_some_iff.mpr ⟨m, hm, Option.bind_eq_some_iff.mpr ⟨src, hsrc,
      Option.bind_eq_some_iff.mpr ⟨dst, hdst, rfl⟩⟩⟩

omit [MemletSides] in
/-- At an access node of the array an edge goes to the part of a known index. -/
theorem endPart_eq_some {a : ℕ} {subset : Option (List Dim)} {n : Node}
    (ha : isArray t kind (.orig a) = true) (h : endPart t kind (.orig a) subset = some n) :
    ∃ k, subset.bind (constant t) = some k ∧ Node.part a k = n := by
  rw [endPart, if_pos ha] at h
  exact Option.map_eq_some_iff.mp h

/-- **A data edge between two access nodes of the array is not split as it should be**: its
other subset keeps the split dimension. -/
theorem noSelfCopy_of_keeps (hpath : FindsPaths hasPath) (hdim : t.dim < t.rank)
    (hscalar : ¬ (t.rank = 1 ∧ t.transient = true))
    (hwf : WellFormed t st) {edges' : List Edge}
    (hsplit : splitState t hasPath indices st = some edges') (hkeeps : KeepsState t st edges') :
    NoSelfCopy t st := by
  rintro e he hdata ⟨hasrc, hadst⟩
  obtain ⟨m, hm⟩ := Option.isSome_iff_exists.mp hdata
  obtain ⟨a, b, hsrc, hdst, -, -⟩ := hwf.ends e he
  obtain ⟨e', hedge, he'⟩ := hkeeps.accesses e he hdata
  -- what the edge should become
  obtain ⟨m', src, dst, hm', hsrcPart, hdstPart, hshould⟩ := splitEdge_eq_some.mp hedge
  obtain rfl : m = m' := Option.some.inj (hm.symm.trans hm')
  rw [hsrc] at hsrcPart
  rw [hdst] at hdstPart
  obtain ⟨k, hk, rfl⟩ := endPart_eq_some (hsrc ▸ hasrc) hsrcPart
  obtain ⟨l, hl, rfl⟩ := endPart_eq_some (hdst ▸ hadst) hdstPart
  -- what the pass made of an edge
  rw [splitState] at hsplit
  obtain ⟨edges, hedges, hrest⟩ := Option.bind_eq_some_iff.mp hsplit
  split at hrest
  swap
  · cases hrest
  obtain rfl := Option.some.inj hrest
  obtain ⟨g, hg, rfl⟩ := mem_map.mp he'
  have hfresh : ∀ id ∈ arrayNodes t st, Fresh id st.edges := by
    intro id _ e he k
    obtain ⟨a, b, hsrc, hdst, -, -⟩ := hwf.ends e he
    rw [hsrc, hdst]
    simp
  obtain ⟨-, -, hmoved⟩ := foldlM_splitNode hpath (arrayNodes t st)
    (hwf.nodup.filter _) hfresh hwf.acyclic hedges
  have hgdata : g.memlet.isSome = true := by
    have hmemlet := congrArg (fun e => e.memlet.isSome) hshould
    simpa using hmemlet
  obtain ⟨f, hf, hfdata, rfl⟩ := (hmoved g hgdata).mp hg
  obtain ⟨mf, hmf⟩ := Option.isSome_iff_exists.mp hfdata
  obtain ⟨c, d, hfsrc, hfdst, -, -⟩ := hwf.ends f hf
  have hfasrc : isArray t st.kind f.src = true := by
    by_contra h
    have hnone : ∀ id ∈ arrayNodes t st, f.src ≠ .orig id := fun id hid heq =>
      h (heq ▸ (mem_arrayNodes.mp hid).2)
    have hends := congrArg Edge.src hshould
    rw [show _ = f.src from moveAll_src _ hnone, hfsrc] at hends
    cases hends
  have hfadst : isArray t st.kind f.dst = true := by
    by_contra h
    have hnone : ∀ id ∈ arrayNodes t st, f.dst ≠ .orig id := fun id hid heq =>
      h (heq ▸ (mem_arrayNodes.mp hid).2)
    have hends := congrArg Edge.dst hshould
    rw [show _ = f.dst from moveAll_dst _ hnone, hfdst] at hends
    cases hends
  obtain ⟨hfname, -, hfrank⟩ := hwf.atBoth f hf mf hmf hfasrc hfadst
  obtain ⟨hname, hends, hrank⟩ := hwf.atBoth e he m hm hasrc hadst
  -- its other subset has the rank of the array still
  obtain ⟨o, ho⟩ : ∃ o, m.other = some o := by
    cases h : m.other with
    | some o => exact ⟨o, rfl⟩
    | none =>
      rcases hends with hend | hend
      · rw [hend, h] at hk
        cases hk
      · rw [hend, h] at hl
        cases hl
  have hmemlet := congrArg (fun e => e.memlet.bind Memlet.other) hshould
  have hright : (splitMemlet t st.kind e m).other = some (o.eraseIdx t.dim) := by
    simp [splitMemlet, hname, hasrc, hadst, ho, without, hscalar]
  have hleft : ((moveAll t st.kind (arrayNodes t st) f).memlet.map
    (renameMemlet t)).bind Memlet.other
      = mf.other := by
    rw [moveAll_memlet_of_data _ hmf hfname]
    simp [renameMemlet, hfname]
  have hother : mf.other = some (o.eraseIdx t.dim) := by
    rw [← hleft, ← hright]
    exact hmemlet
  have hlength := hfrank _ hother
  have holength := hrank o ho
  rw [length_eraseIdx, holength, if_pos hdim] at hlength
  omega

/-! ## The array -/

/-- The split keeps data and order, when the array is split. -/
def KeepsDataAndOrder (t : Target) (hasPath : HasPath) (sdfg : Sdfg) : Prop :=
  match splitArray t hasPath sdfg with
  | .declined => True
  | .raised => False
  | .split states => List.Forall₂ (KeepsState t) sdfg.states states

/-- The pass leaves the SDFG as it is. -/
def Declines (t : Target) (sdfg : Sdfg) : Prop :=
  match constantIndices t sdfg with
  | none | some [] => True
  | some indices => (indices.any fun k => sdfg.names.contains (partName t k)) = true

/-- Outside the cases it declines, the pass splits state after state. -/
theorem splitArray_of_not_declines {sdfg : Sdfg} (h : ¬ Declines t sdfg) :
    ∃ indices, constantIndices t sdfg = some indices ∧
      splitArray t hasPath sdfg =
        match sdfg.states.mapM (splitState t hasPath indices) with
        | some states => .split states
        | none => .raised := by
  rw [Declines] at h
  cases hindices : constantIndices t sdfg with
  | none => simp [hindices] at h
  | some indices =>
    cases indices with
    | nil => simp [hindices] at h
    | cons k ks =>
      refine ⟨k :: ks, rfl, ?_⟩
      rw [hindices] at h
      simp only [splitArray, hindices]
      exact if_neg h

theorem declined_of_declines (h : Declines t sdfg) :
    splitArray t hasPath sdfg = .declined := by
  rw [Declines] at h
  rw [splitArray]
  split
  · rfl
  · rfl
  · next indices hne hindices =>
    rw [hindices] at h
    split at h
    · next heq => cases heq
    · next heq => exact absurd (Option.some.inj heq) (by rintro rfl; exact hne rfl)
    · next heq =>
      obtain rfl := Option.some.inj heq
      rw [if_pos h]

/-- **`split_array` keeps data and order** where no data edge joins two access nodes of the
array, and, where the array keeps a dimension, only there. -/
theorem splitArray_keeps_iff (t : Target) (hasPath : HasPath) (hpath : FindsPaths hasPath)
    (hdim : t.dim < t.rank) (sdfg : Sdfg) (hwf : ∀ st ∈ sdfg.states, WellFormed t st) :
    ((Declines t sdfg ∨ ∀ st ∈ sdfg.states, NoSelfCopy t st) → KeepsDataAndOrder t hasPath sdfg) ∧
    (¬ (t.rank = 1 ∧ t.transient = true) → KeepsDataAndOrder t hasPath sdfg →
      Declines t sdfg ∨ ∀ st ∈ sdfg.states, NoSelfCopy t st) := by
  by_cases hdeclines : Declines t sdfg
  · have hkeeps : KeepsDataAndOrder t hasPath sdfg := by
      rw [KeepsDataAndOrder, declined_of_declines hdeclines]
      trivial
    exact ⟨fun _ => hkeeps, fun _ _ => .inl hdeclines⟩
  obtain ⟨indices, hindices, hsplit⟩ := @splitArray_of_not_declines _ _ hasPath _ hdeclines
  constructor
  · intro h
    have hcopy := h.resolve_left hdeclines
    have hall : ∀ states : List State, (∀ st ∈ states, st ∈ sdfg.states) →
        ∃ split, List.Forall₂ (fun st edges' => splitState t hasPath indices st = some edges')
          states split ∧ List.Forall₂ (KeepsState t) states split := by
      intro states hmem
      induction states with
      | nil => exact ⟨[], .nil, .nil⟩
      | cons st states ih =>
        have hst := hmem st List.mem_cons_self
        obtain ⟨edges', hedges', hkeeps⟩ :=
          splitState_keeps hpath hindices hst (hwf st hst) (hcopy st hst)
        obtain ⟨split, hsplit, hkeeps'⟩ := ih fun s hs => hmem s (List.mem_cons_of_mem _ hs)
        exact ⟨edges' :: split, .cons hedges' hsplit, .cons hkeeps hkeeps'⟩
    obtain ⟨split, hstates, hkeeps⟩ := hall sdfg.states fun _ h => h
    rw [KeepsDataAndOrder, hsplit, Fallible.mapM_eq_some_iff.mpr hstates]
    exact hkeeps
  · intro hscalar hkeeps
    right
    rw [KeepsDataAndOrder, hsplit] at hkeeps
    cases hmap : sdfg.states.mapM (splitState t hasPath indices) with
    | none =>
      rw [hmap] at hkeeps
      exact hkeeps.elim
    | some split =>
      rw [hmap] at hkeeps
      have hstates := Fallible.mapM_eq_some_iff.mp hmap
      intro st hst
      obtain ⟨i, hi, rfl⟩ := List.mem_iff_getElem.mp hst
      have hi' : i < split.length := hkeeps.length_eq ▸ hi
      exact noSelfCopy_of_keeps hpath hdim hscalar (hwf _ hst) (hstates.get hi hi')
        (hkeeps.get hi hi')

end

/-! ## A copy between two rows -/

variable {memlet : Memlet} {src dst : String}

open Classical in
/-- The paths there are. -/
noncomputable def pathsThereAre : HasPath := fun edges a b =>
  decide (ReflTransGen (Adjacent edges) a b)

theorem findsPaths_pathsThereAre : FindsPaths pathsThereAre := by
  intro edges a b
  simp [pathsThereAre]

/-- Rows of an array of two dimensions. -/
def rows : Target := ⟨"a", 0, 2, false⟩

/-- The array of an access node. -/
def nodeData (kind : ℕ → Kind) : Node → Option String
  | .orig id =>
      match kind id with
      | .access data => some data
      | _ => none
  | .part _ k => some (partName rows k)

/-- The subset is the source's where the source is of the memlet's data, else the destination's. -/
instance : MemletSides where
  srcSubset kind e m := if nodeData kind e.src = some m.data then some m.subset else m.other
  dstSubset kind e m := if nodeData kind e.src = some m.data then m.other else some m.subset

/-- `x` goes to row `k` of the array. -/
def rowsState (memlet : Memlet) (src dst : String) : State :=
  { nodes := [0, 1]
    kind := fun id => if id = 0 then .access src else .access dst
    edges := [⟨.orig 0, none, .orig 1, none, some memlet⟩] }

theorem adjacent_rowsState {a b : Node}
    (h : Adjacent (rowsState memlet src dst).edges a b) : a = .orig 0 ∧ b = .orig 1 := by
  obtain ⟨e, he, rfl, rfl⟩ := h
  obtain rfl := mem_singleton.mp he
  exact ⟨rfl, rfl⟩

theorem acyclic_rowsState (a : Node) :
    ¬ TransGen (Adjacent (rowsState memlet src dst).edges) a a := by
  have hends : ∀ {a b}, TransGen (Adjacent (rowsState memlet src dst).edges) a b →
      a = .orig 0 ∧ b = .orig 1 := by
    intro a b h
    induction h with
    | single hab => exact adjacent_rowsState hab
    | tail _ hbc ih => exact ⟨ih.1, (adjacent_rowsState hbc).2⟩
  intro h
  obtain ⟨h₀, h₁⟩ := hends h
  rw [h₀] at h₁
  cases h₁

/-- Row 1 copied to row 2 of the same array. -/
def rowCopy : Sdfg :=
  ⟨[], [rowsState ⟨"a", [.index 1, .range "0:n"], some [.index 2, .range "0:n"]⟩ "a" "a"], []⟩

/-- When the source has become a part, its data is not the memlet's any more: the destination
becomes a part for index 1 too. -/
theorem not_keepsDataAndOrder_copy : ¬ KeepsDataAndOrder rows pathsThereAre rowCopy := by
  intro h
  have hsplit : splitArray rows pathsThereAre rowCopy = .split [[⟨.part 0 1, none, .part 1 1, none,
      some ⟨"a_1", [.range "0:n"], some [.index 2, .range "0:n"]⟩⟩]] := by
    rfl
  rw [KeepsDataAndOrder, hsplit] at h
  cases h with
  | cons hstate _ =>
    obtain ⟨e', hsome, he'⟩ := hstate.accesses _ List.mem_cons_self rfl
    obtain rfl := List.mem_singleton.mp he'
    exact absurd hsome (by decide)

/-- `x` copied to row 1, which is split off. -/
theorem splitArray_keeps_iff_row :
    KeepsDataAndOrder rows pathsThereAre
      ⟨[], [rowsState ⟨"x", [.range "0:n"], some [.index 1, .range "0:n"]⟩ "x" "a"], []⟩ :=
  (splitArray_keeps_iff rows pathsThereAre findsPaths_pathsThereAre (by decide)
    ⟨[], [rowsState ⟨"x", [.range "0:n"], some [.index 1, .range "0:n"]⟩ "x" "a"], []⟩
    (by
      intro st hst
      obtain rfl := List.mem_singleton.mp hst
      refine ⟨by decide, ?_, acyclic_rowsState, ?_, ?_, ?_⟩
      · intro e he
        obtain rfl := List.mem_singleton.mp he
        exact ⟨0, 1, rfl, rfl, by decide, by decide⟩
      all_goals
        intro e he m hm
        obtain rfl := List.mem_singleton.mp he
        obtain rfl := Option.some.inj hm
        decide)).1
    (.inr (by
      intro st hst e he _
      obtain rfl := List.mem_singleton.mp hst
      obtain rfl := List.mem_singleton.mp he
      decide))

end ArraySplit
