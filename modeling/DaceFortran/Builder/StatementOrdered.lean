/-
# When a state is put in statement order

**`order_state` puts a state in statement order** where no pair of accesses has, at its
turn, the later one lead to the earlier one, and no plain store stands unordered beside
an accumulating one: a pair the later access of which leads to the earlier one is passed
over in silence, and the writers of one node are compared among the plain stores only.
-/
import DaceFortran.Builder.StatementOrder
import Mathlib.Data.Fin.VecNotation
import Mathlib.Tactic.FinCases

open List

namespace StatementOrder

open Relation

variable {n : ℕ} {S : Type} {state : State n S} {kind : Fin n → Kind n} {container : ℕ}

/-! ## All pairs of a container -/

/-- At the turn of every pair of which one is written, the later access does not lead to
the earlier one. -/
def TurnsForward (kind : Fin n → Kind n) (written : Fin n → Bool) (container : ℕ) :
    List (Fin n × Fin n) → Work n S → Prop
  | [], _ => True
  | pair :: pairs, w =>
      (written pair.1 = true ∨ written pair.2 = true → ¬ Leads w.edges pair.2 pair.1) ∧
      TurnsForward kind written container pairs (orderPair kind container w pair)

theorem foldl_orderPair_spec (container : ℕ) {written : Fin n → Bool} :
    ∀ (pairs : List (Fin n × Fin n)) {w : Work n S}, Exact w →
    Acyclic w.edges → Scoped kind w.edges →
    (∀ pair ∈ pairs, (w.reach pair.1).isSome ∧ (w.reach pair.2).isSome) →
    (∀ a, written a = true → isWritten w.edges a = true) →
    Acyclic (pairs.foldl (orderPair kind container) w).edges ∧
      Extends w (pairs.foldl (orderPair kind container) w) ∧
      (TurnsForward kind written container pairs w → ∀ pair ∈ pairs,
        written pair.1 = true ∨ written pair.2 = true →
        Settled (pairs.foldl (orderPair kind container) w).edges
          (pairs.foldl (orderPair kind container) w).skipped container pair.1 pair.2) := by
  intro pairs
  induction pairs with
  | nil => exact fun _ hacyclic _ _ _ => ⟨hacyclic, Extends.refl _, by simp⟩
  | cons pair pairs ih =>
      intro w h hacyclic hs hkeys hwritten
      obtain ⟨ha, hb⟩ := hkeys pair (by simp)
      obtain ⟨h₁, ha₁, hext₁, hset₁⟩ := orderPair_spec container h hacyclic hs pair.1 pair.2 ha hb
      obtain ⟨ha₂, hext₂, hset₂⟩ := ih h₁ ha₁ (hs.mono hext₁.edges)
        (fun q hq =>
          ⟨hext₁.keys _ (hkeys q (by simp [hq])).1, hext₁.keys _ (hkeys q (by simp [hq])).2⟩)
        fun a hw => isWritten_mono hext₁.edges (hwritten a hw)
      refine ⟨ha₂, hext₁.trans hext₂, fun hturns => ?_⟩
      rw [TurnsForward] at hturns
      rw [forall_mem_cons]
      constructor
      · intro hw
        have hsettled := hset₁ (hw.imp (hwritten _) (hwritten _)) (hturns.1 hw)
        exact hsettled.mono hext₂.edges hext₂.skipped
      · intro q hq hw
        exact hset₂ hturns.2 q hq hw

theorem exact_startContainer (p : Progress n S) : Exact (startContainer state container p) := by
  intro a known hknown b
  simp only [startContainer] at hknown
  split_ifs at hknown
  obtain rfl := Option.some.inj hknown
  exact mem_descendants

/-- Edges and reports are kept. -/
structure Keeps (p q : Progress n S) : Prop where
  edges : ∀ e ∈ p.edges, e ∈ q.edges
  skipped : ∀ s ∈ p.skipped, s ∈ q.skipped

theorem Keeps.refl (p : Progress n S) : Keeps p p := ⟨fun _ h => h, fun _ h => h⟩

theorem Keeps.trans {p q r : Progress n S} (h : Keeps p q) (h' : Keeps q r) : Keeps p r :=
  ⟨fun e he => h'.edges e (h.edges e he), fun s hs => h'.skipped s (h.skipped s hs)⟩

theorem startContainer_keys (p : Progress n S) :
    ∀ pair ∈ pairsOf (accessesOf state container),
      ((startContainer state container p).reach pair.1).isSome ∧
        ((startContainer state container p).reach pair.2).isSome := by
  intro pair hpair
  obtain ⟨h₁, h₂⟩ := mem_of_mem_pairsOf hpair
  simp [startContainer, h₁, h₂]

variable {p : Progress n S} {final : List (Edge n S)} {a b : Fin n} {edges : List (Edge n S)}
  {intersects : S → S → Option Bool}

theorem orderContainer_spec (container : ℕ) (hacyclic : Acyclic p.edges)
    (hs : Scoped state.kind p.edges)
    (hwritten : ∀ a, isWritten state.edges a = true → isWritten p.edges a = true) :
    Acyclic (orderContainer state p container).edges ∧
      Keeps p (orderContainer state p container) ∧
      (TurnsForward state.kind (isWritten state.edges) container
          (pairsOf (accessesOf state container)) (startContainer state container p) →
        ∀ pair ∈ pairsOf (accessesOf state container),
          isWritten state.edges pair.1 = true ∨ isWritten state.edges pair.2 = true →
          Settled (orderContainer state p container).edges
            (orderContainer state p container).skipped container pair.1 pair.2) := by
  obtain ⟨ha, hext, hset⟩ := foldl_orderPair_spec container
    (pairsOf (accessesOf state container)) (exact_startContainer p) hacyclic hs
    (startContainer_keys p) hwritten
  exact ⟨ha, ⟨hext.edges, hext.skipped⟩, hset⟩

/-- Every pair of every container has its turn forward. -/
def ContainersForward (state : State n S) : List ℕ → Progress n S → Prop
  | [], _ => True
  | container :: containers, p =>
      TurnsForward state.kind (isWritten state.edges) container
        (pairsOf (accessesOf state container)) (startContainer state container p) ∧
      ContainersForward state containers (orderContainer state p container)

theorem foldl_orderContainer_spec : ∀ (containers : List ℕ) {p : Progress n S},
    Acyclic p.edges → Scoped state.kind p.edges →
    (∀ a, isWritten state.edges a = true → isWritten p.edges a = true) →
    Acyclic (containers.foldl (orderContainer state) p).edges ∧
      Keeps p (containers.foldl (orderContainer state) p) ∧
      (ContainersForward state containers p → ∀ container ∈ containers,
        ∀ pair ∈ pairsOf (accessesOf state container),
          isWritten state.edges pair.1 = true ∨ isWritten state.edges pair.2 = true →
          Settled (containers.foldl (orderContainer state) p).edges
            (containers.foldl (orderContainer state) p).skipped container pair.1 pair.2) := by
  intro containers
  induction containers with
  | nil => exact fun hacyclic _ _ => ⟨hacyclic, Keeps.refl _, by simp⟩
  | cons container containers ih =>
      intro p hacyclic hs hwritten
      obtain ⟨ha₁, hk₁, hset₁⟩ := orderContainer_spec container hacyclic hs hwritten
      obtain ⟨ha₂, hk₂, hset₂⟩ := ih ha₁ (hs.mono hk₁.edges)
        fun a hw => isWritten_mono hk₁.edges (hwritten a hw)
      refine ⟨ha₂, hk₁.trans hk₂, fun hforward => ?_⟩
      rw [ContainersForward] at hforward
      rw [forall_mem_cons]
      constructor
      · intro pair hpair hw
        exact (hset₁ hforward.1 pair hpair hw).mono hk₂.edges hk₂.skipped
      · intro c hc pair hpair hw
        exact hset₂ hforward.2 c hc pair hpair hw

/-! ## What a connected pair says of its turn -/

/-- A pair that is connected in the end had its turn forward. -/
theorem turnsForward_of_connected (container : ℕ) {written : Fin n → Bool}
    (hfinal : Acyclic final) :
    ∀ (pairs : List (Fin n × Fin n)) {w : Work n S}, Exact w →
    Acyclic w.edges → Scoped kind w.edges →
    (∀ pair ∈ pairs, (w.reach pair.1).isSome ∧ (w.reach pair.2).isSome) →
    (∀ e ∈ (pairs.foldl (orderPair kind container) w).edges, e ∈ final) →
    (∀ e ∈ w.edges, e ∈ final) →
    (∀ pair ∈ pairs, written pair.1 = true ∨ written pair.2 = true →
      Leads final pair.1 pair.2) →
    TurnsForward kind written container pairs w := by
  intro pairs
  induction pairs with
  | nil => exact fun _ _ _ _ _ _ _ => trivial
  | cons pair pairs ih =>
      intro w h hacyclic hs hkeys hlast hnow hconnected
      rw [forall_mem_cons] at hconnected
      obtain ⟨ha, hb⟩ := hkeys pair (by simp)
      obtain ⟨h₁, ha₁, hext₁, -⟩ := orderPair_spec container h hacyclic hs pair.1 pair.2 ha hb
      have hkeys₁ : ∀ q ∈ pairs,
          ((orderPair kind container w pair).reach q.1).isSome ∧
            ((orderPair kind container w pair).reach q.2).isSome := fun q hq =>
        ⟨hext₁.keys _ (hkeys q (by simp [hq])).1, hext₁.keys _ (hkeys q (by simp [hq])).2⟩
      have hext₂ := (@foldl_orderPair_spec n S kind container (fun _ => false) pairs _ h₁ ha₁
        (hs.mono hext₁.edges) hkeys₁ (by simp)).2.1
      refine ⟨fun hw hback => ?_, ?_⟩
      · exact hfinal _ ((hconnected.1 hw).trans (hback.mono hnow))
      · exact ih h₁ ha₁ (hs.mono hext₁.edges) hkeys₁ hlast
          (fun e he => hlast e (hext₂.edges e he)) hconnected.2

theorem containersForward_of_connected (hfinal : Acyclic final) :
    ∀ (containers : List ℕ) {p : Progress n S}, Acyclic p.edges → Scoped state.kind p.edges →
    (∀ a, isWritten state.edges a = true → isWritten p.edges a = true) →
    (∀ e ∈ (containers.foldl (orderContainer state) p).edges, e ∈ final) →
    (∀ container ∈ containers, ∀ pair ∈ pairsOf (accessesOf state container),
      isWritten state.edges pair.1 = true ∨ isWritten state.edges pair.2 = true →
      Leads final pair.1 pair.2) →
    ContainersForward state containers p := by
  intro containers
  induction containers with
  | nil => exact fun _ _ _ _ _ => trivial
  | cons container containers ih =>
      intro p hacyclic hs hwritten hlast hconnected
      rw [forall_mem_cons] at hconnected
      obtain ⟨ha₁, hk₁, -⟩ := orderContainer_spec container hacyclic hs hwritten
      have hwritten₁ : ∀ a, isWritten state.edges a = true →
          isWritten (orderContainer state p container).edges a = true :=
        fun a hw => isWritten_mono hk₁.edges (hwritten a hw)
      have hk₂ := (foldl_orderContainer_spec containers ha₁ (hs.mono hk₁.edges) hwritten₁).2.1
      have hend : ∀ e ∈ (orderContainer state p container).edges, e ∈ final :=
        fun e he => hlast e (hk₂.edges e he)
      refine ⟨?_, ih ha₁ (hs.mono hk₁.edges) hwritten₁ hlast hconnected.2⟩
      apply turnsForward_of_connected container hfinal _ (exact_startContainer p) hacyclic hs
        (startContainer_keys p) hend _ hconnected.1
      exact fun e he => hend e (hk₁.edges e he)

/-! ## The writers of one node -/

/-- The two ends of a scope name each other. -/
def Matched (kind : Fin n → Kind n) : Prop :=
  (∀ a x, kind a = .entry x → kind x = .exit a) ∧ ∀ a x, kind a = .exit x → kind x = .entry a

/-- The writers of a pair are anchored apart. -/
theorem completionAnchor_ne_startAnchor (hm : Matched kind) (hab : a ≠ b) :
    completionAnchor kind a ≠ startAnchor kind b := by
  rw [completionAnchor, startAnchor]
  cases ha : kind a with
  | entry x =>
      have hx := hm.1 a x ha
      cases hb : kind b with
      | exit y =>
          have hy := hm.2 b y hb
          intro heq
          dsimp only at heq
          rw [heq, hy] at hx
          cases hx
      | _ =>
          intro heq
          dsimp only at heq
          rw [heq, hb] at hx
          cases hx
  | _ =>
      cases hb : kind b with
      | exit y =>
          have hy := hm.2 b y hb
          intro heq
          dsimp only at heq
          rw [← heq, ha] at hy
          cases hy
      | _ => exact hab

/-- The pair of writers is connected or reported. -/
def StoresSettled (kind : Fin n → Kind n) (container : ℕ) (p : Progress n S)
    (a b : Fin n) : Prop :=
  Leads p.edges (completionAnchor kind a) (startAnchor kind b) ∨
    ⟨container, completionAnchor kind a, startAnchor kind b⟩ ∈ p.skipped

theorem StoresSettled.mono {p q : Progress n S}
    (h : StoresSettled kind container p a b) (hk : Keeps p q) :
    StoresSettled kind container q a b :=
  h.imp (Leads.mono hk.edges) (hk.skipped _)

/-- A step adds ordering edges only. -/
def SameStores (p q : Progress n S) : Prop :=
  ∀ node, plainStores q.edges node = plainStores p.edges node

theorem plainStores_append (edges : List (Edge n S)) (a b node : Fin n) :
    plainStores (edges ++ [orderingEdge a b]) node = plainStores edges node := by
  simp [plainStores, orderingEdge]

theorem orderStores_spec (container : ℕ) (hacyclic : Acyclic p.edges) (hm : Matched kind)
    (pair : Store n S × Store n S) (hne : pair.1.1 ≠ pair.2.1) :
    Acyclic (orderStores kind container p pair).edges ∧
      Keeps p (orderStores kind container p pair) ∧
      SameStores p (orderStores kind container p pair) ∧
      StoresSettled kind container (orderStores kind container p pair) pair.1.1 pair.2.1 := by
  rw [orderStores]
  split_ifs with hforth hback
  · exact ⟨hacyclic, Keeps.refl p, fun _ => rfl, Or.inl (mem_descendants.1 hforth)⟩
  · exact ⟨hacyclic, ⟨fun _ he => he, fun s hs => mem_append_left _ hs⟩, fun _ => rfl,
      Or.inr (mem_append_right _ (mem_singleton_self _))⟩
  · have hins := inserts p.edges (completionAnchor kind pair.1.1) (startAnchor kind pair.2.1)
    refine ⟨?_, ⟨fun e he => mem_append_left _ he, fun _ hs => hs⟩,
      fun node => plainStores_append _ _ _ node, Or.inl (TransGen.single ?_)⟩
    · exact EdgeInsertion.acyclic hins hacyclic (completionAnchor_ne_startAnchor hm hne)
        fun hl => hback (mem_descendants.2 hl)
    · exact (hins _ _).2 (Or.inr ⟨rfl, rfl⟩)

theorem foldl_orderStores_spec (container : ℕ) (hm : Matched kind) :
    ∀ (pairs : List (Store n S × Store n S)) {p : Progress n S}, Acyclic p.edges →
    (∀ pair ∈ pairs, pair.1.1 ≠ pair.2.1) →
    Acyclic (pairs.foldl (orderStores kind container) p).edges ∧
      Keeps p (pairs.foldl (orderStores kind container) p) ∧
      SameStores p (pairs.foldl (orderStores kind container) p) ∧
      ∀ pair ∈ pairs, StoresSettled kind container
        (pairs.foldl (orderStores kind container) p) pair.1.1 pair.2.1 := by
  intro pairs
  induction pairs with
  | nil => exact fun hacyclic _ => ⟨hacyclic, Keeps.refl _, fun _ => rfl, by simp⟩
  | cons pair pairs ih =>
      intro p hacyclic hne
      rw [forall_mem_cons] at hne
      obtain ⟨ha₁, hk₁, hs₁, hset₁⟩ :=
        orderStores_spec container hacyclic hm pair hne.1
      obtain ⟨ha₂, hk₂, hs₂, hset₂⟩ := ih ha₁ hne.2
      refine ⟨ha₂, hk₁.trans hk₂, fun node => (hs₂ node).trans (hs₁ node), ?_⟩
      rw [forall_mem_cons]
      exact ⟨hset₁.mono hk₂, hset₂⟩

theorem orderWritersOf_spec (intersects : S → S → Option Bool) (hm : Matched kind)
    (hacyclic : Acyclic p.edges) (node : Fin n) :
    Acyclic (orderWritersOf kind intersects p node).edges ∧
      Keeps p (orderWritersOf kind intersects p node) ∧
      SameStores p (orderWritersOf kind intersects p node) ∧
      ∀ container, kind node = .access container →
        ∀ pair ∈ storePairs intersects p.edges node,
          StoresSettled kind container (orderWritersOf kind intersects p node)
            pair.1.1 pair.2.1 := by
  rw [orderWritersOf]
  cases hkind : kind node with
  | access container =>
      have hne : ∀ pair ∈ storePairs intersects p.edges node, pair.1.1 ≠ pair.2.1 := by
        intro pair hpair
        rw [storePairs, mem_filter, Bool.and_eq_true, decide_eq_true_eq] at hpair
        exact hpair.2.1
      obtain ⟨ha, hk, hs, hset⟩ :=
        foldl_orderStores_spec container hm _ hacyclic hne
      refine ⟨ha, hk, hs, ?_⟩
      rintro c hc
      obtain rfl : container = c := by injection hc
      exact hset
  | _ => exact ⟨hacyclic, Keeps.refl p, fun _ => rfl, fun c hc => by cases hc⟩

theorem foldl_orderWritersOf_spec (intersects : S → S → Option Bool) (hm : Matched kind) :
    ∀ (l : List (Fin n)) {p : Progress n S}, Acyclic p.edges →
    Acyclic (l.foldl (orderWritersOf kind intersects) p).edges ∧
      Keeps p (l.foldl (orderWritersOf kind intersects) p) ∧
      ∀ node ∈ l, ∀ container, kind node = .access container →
        ∀ pair ∈ storePairs intersects p.edges node,
          StoresSettled kind container (l.foldl (orderWritersOf kind intersects) p)
            pair.1.1 pair.2.1 := by
  intro l
  induction l with
  | nil => exact fun hacyclic => ⟨hacyclic, Keeps.refl _, by simp⟩
  | cons a l ih =>
      intro p hacyclic
      obtain ⟨ha₁, hk₁, hs₁, hset₁⟩ := orderWritersOf_spec intersects hm hacyclic a
      obtain ⟨ha₂, hk₂, hset₂⟩ := ih ha₁
      refine ⟨ha₂, hk₁.trans hk₂, ?_⟩
      rw [forall_mem_cons]
      constructor
      · intro c hc pair hpair
        exact (hset₁ c hc pair hpair).mono hk₂
      · intro node hnode c hc pair hpair
        apply hset₂ node hnode c hc pair
        rw [storePairs, hs₁ node]
        exact hpair

/-! ## The whole state -/

/-- A state of an acyclic graph with well nested scopes. -/
structure WellFormed (state : State n S) : Prop where
  acyclic : Acyclic state.edges
  scopes : Scoped state.kind state.edges
  matched : Matched state.kind

/-- The result is acyclic, every pair of accesses of a container of which one writes is
connected in statement order or reported, and so is every pair of stores into one node
of which one is plain, at elements that may be the same. -/
structure InStatementOrder (intersects : S → S → Option Bool) (state : State n S)
    (p : Progress n S) : Prop where
  acyclic : Acyclic p.edges
  accesses : ∀ container a b, a < b → state.topLevel a = true → state.topLevel b = true →
    state.kind a = .access container → state.kind b = .access container →
    isWritten state.edges a = true ∨ isWritten state.edges b = true →
    Leads p.edges a b ∨ Reported p.edges p.skipped container a b
  stores : ∀ container, ∀ e ∈ state.edges, ∀ f ∈ state.edges, e.dst = f.dst →
    state.kind e.dst = .access container → e.isEmpty = false → f.isEmpty = false →
    e.src < f.src → mayMeet intersects e.subset f.subset = true →
    e.wcr = false ∨ f.wcr = false →
    StoresSettled state.kind container p e.src f.src

/-- A plain and an accumulating store into one node, at elements that may be the same,
are connected in statement order by the dataflow. -/
def MixedConnected (intersects : S → S → Option Bool) (state : State n S) : Prop :=
  ∀ container, ∀ e ∈ state.edges, ∀ f ∈ state.edges, e.dst = f.dst →
    state.kind e.dst = .access container → e.isEmpty = false → f.isEmpty = false →
    e.src < f.src → mayMeet intersects e.subset f.subset = true → e.wcr ≠ f.wcr →
    Leads state.edges (completionAnchor state.kind e.src) (startAnchor state.kind f.src)

theorem mem_accessesOf {a : Fin n} (ht : state.topLevel a = true)
    (hk : state.kind a = .access container) : a ∈ accessesOf state container := by
  simp [accessesOf, ht, hk]

theorem mem_containersOf {a : Fin n} (ht : state.topLevel a = true)
    (hk : state.kind a = .access container) : container ∈ containersOf state := by
  rw [containersOf, mem_eraseDups, mem_filterMap]
  exact ⟨a, mem_finRange a, by simp [hk, ht]⟩

theorem pairwise_accessesOf (state : State n S) (container : ℕ) :
    (accessesOf state container).Pairwise (· < ·) :=
  (pairwise_lt_finRange n).filter _

theorem mem_storePairs
    {e f : Edge n S} (he : e ∈ edges) (hf : f ∈ edges) (hdst : e.dst = f.dst)
    (hee : e.isEmpty = false) (hfe : f.isEmpty = false) (hew : e.wcr = false)
    (hfw : f.wcr = false) (hlt : e.src < f.src)
    (hmeet : mayMeet intersects e.subset f.subset = true) :
    ((e.src, e.subset), (f.src, f.subset)) ∈ storePairs intersects edges e.dst := by
  have hmem : ∀ g ∈ edges, g.dst = e.dst → g.isEmpty = false → g.wcr = false →
      (g.src, g.subset) ∈ plainStores edges e.dst := by
    intro g hg hgd hge hgw
    rw [plainStores, mem_mergeSort]
    exact mem_map.2 ⟨g, mem_filter.2 ⟨hg, by simp [hgd, hge, hgw]⟩, rfl⟩
  rw [storePairs, mem_filter]
  refine ⟨?_, ?_⟩
  · apply mem_pairsOf (r := fun a b : Store n S => decide (a.1 ≤ b.1) = true)
    · apply pairwise_mergeSort
      · intro a b c hab hbc
        simp only [decide_eq_true_eq] at *
        exact Nat.le_trans hab hbc
      · intro a b
        simp only [Bool.or_eq_true, decide_eq_true_eq]
        exact Nat.le_total _ _
    · exact hmem e he rfl hee hew
    · exact hmem f hf hdst.symm hfe hfw
    · intro heq
      exact absurd (Prod.mk.inj heq).1 (Fin.ne_of_lt hlt)
    · simpa using hlt
  · simp [hmeet, Fin.ne_of_lt hlt]

theorem mem_pairsOf_accessesOf (hlt : a < b) (hta : state.topLevel a = true)
    (htb : state.topLevel b = true) (hka : state.kind a = .access container)
    (hkb : state.kind b = .access container) :
    (a, b) ∈ pairsOf (accessesOf state container) :=
  mem_pairsOf (pairwise_accessesOf state container) (mem_accessesOf hta hka)
    (mem_accessesOf htb hkb) (Fin.ne_of_lt hlt) (by simpa using Fin.le_of_lt hlt)

theorem orderState_settles (intersects : S → S → Option Bool) (hwf : WellFormed state)
    (hmixed : MixedConnected intersects state)
    (hforward : ContainersForward state (containersOf state) (orderWriters intersects state)) :
    InStatementOrder intersects state (orderState intersects state) := by
  obtain ⟨ha₁, hk₁, hstores⟩ := foldl_orderWritersOf_spec intersects hwf.matched
    (List.finRange n) (p := ⟨state.edges, []⟩) hwf.acyclic
  obtain ⟨ha₂, hk₂, hset⟩ := foldl_orderContainer_spec (containersOf state) ha₁
    (hwf.scopes.mono hk₁.edges) fun a hw => isWritten_mono hk₁.edges hw
  refine ⟨ha₂, ?_, ?_⟩
  · intro container a b hlt hta htb hka hkb hw
    rcases hset hforward container (mem_containersOf hta hka) (a, b)
      (mem_pairsOf_accessesOf hlt hta htb hka hkb) hw with hp | hr
    · rcases path_iff.1 hp with heq | hl
      · exact absurd heq.symm (Fin.ne_of_lt hlt)
      · exact Or.inl hl
    · exact Or.inr hr
  · intro container e he f hf hdst hkind hee hfe hlt hmeet hplain
    have hkeeps := hk₁.trans hk₂
    cases hew : e.wcr <;> cases hfw : f.wcr
    · have hpair := mem_storePairs he hf hdst hee hfe hew hfw hlt hmeet
      exact (hstores e.dst (mem_finRange _) container hkind _ hpair).mono hk₂
    · exact Or.inl ((hmixed container e he f hf hdst hkind hee hfe hlt hmeet
        (by simp [hew, hfw])).mono hkeeps.edges)
    · exact Or.inl ((hmixed container e he f hf hdst hkind hee hfe hlt hmeet
        (by simp [hew, hfw])).mono hkeeps.edges)
    · simp [hew, hfw] at hplain

theorem mem_pairsOf_sorted {l : List (Fin n)} (hl : l.Pairwise (· < ·))
    (h : (a, b) ∈ pairsOf l) : a < b := by
  induction l with
  | nil => simp [pairsOf] at h
  | cons c cs ih =>
      rw [pairsOf, mem_append, mem_map] at h
      rw [pairwise_cons] at hl
      rcases h with ⟨d, hd, heq⟩ | h
      · obtain ⟨rfl, rfl⟩ := Prod.mk.inj heq
        exact hl.1 d hd
      · exact ih hl.2 h

/-- Every pair of accesses of a container of which one writes is connected. -/
def AccessesConnected (state : State n S) (p : Progress n S) : Prop :=
  ∀ container a b, a < b → state.topLevel a = true → state.topLevel b = true →
    state.kind a = .access container → state.kind b = .access container →
    isWritten state.edges a = true ∨ isWritten state.edges b = true → Leads p.edges a b

theorem forward_of_accessesConnected (intersects : S → S → Option Bool)
    (hwf : WellFormed state)
    (hconnected : AccessesConnected state (orderState intersects state)) :
    ContainersForward state (containersOf state) (orderWriters intersects state) := by
  obtain ⟨ha₁, hk₁, -⟩ := foldl_orderWritersOf_spec intersects hwf.matched
    (List.finRange n) (p := ⟨state.edges, []⟩) hwf.acyclic
  have hwritten : ∀ a, isWritten state.edges a = true →
      isWritten (orderWriters intersects state).edges a = true :=
    fun a hw => isWritten_mono hk₁.edges hw
  have hs : Scoped state.kind (orderWriters intersects state).edges :=
    hwf.scopes.mono hk₁.edges
  have hfinal := (foldl_orderContainer_spec (containersOf state) ha₁ hs hwritten).1
  apply containersForward_of_connected hfinal _ ha₁ hs hwritten fun e he => he
  intro container _ pair hpair hw
  obtain ⟨h₁, h₂⟩ := mem_of_mem_pairsOf hpair
  simp only [accessesOf, mem_filter, Bool.and_eq_true, decide_eq_true_eq] at h₁ h₂
  exact hconnected container pair.1 pair.2 (mem_pairsOf_sorted (pairwise_accessesOf _ _) hpair)
    h₁.2.1 h₂.2.1 h₁.2.2 h₂.2.2 hw

theorem orderWriters_idle {state : State n S}
    (h : ∀ node, storePairs intersects state.edges node = []) :
    orderWriters intersects state = ⟨state.edges, []⟩ := by
  have hidle : ∀ l : List (Fin n),
      l.foldl (orderWritersOf state.kind intersects) ⟨state.edges, []⟩ = ⟨state.edges, []⟩ := by
    intro l
    induction l with
    | nil => rfl
    | cons a l ih =>
        have ha : orderWritersOf state.kind intersects ⟨state.edges, []⟩ a =
            ⟨state.edges, []⟩ := by
          rw [orderWritersOf]
          split
          · rw [h a, foldl_nil]
          · rfl
        rw [foldl_cons, ha, ih]
  exact hidle _

/-- A state whose edges go from lower to higher ranks is acyclic. -/
theorem lt_of_leads (rank : Fin n → ℕ)
    (h : ∀ e ∈ edges, rank e.src < rank e.dst) (hab : Leads edges a b) :
    rank a < rank b := by
  induction hab with
  | single hstep =>
      obtain ⟨e, he, rfl, rfl⟩ := hstep
      exact h e he
  | tail _ hstep ih =>
      obtain ⟨e, he, rfl, rfl⟩ := hstep
      exact Nat.lt_trans ih (h e he)

theorem wellFormed_of_rank {state : State n S} (rank : Fin n → ℕ)
    (h : ∀ e ∈ state.edges, rank e.src < rank e.dst)
    (hscopes : ∀ a x, state.kind a ≠ .entry x ∧ state.kind a ≠ .exit x) : WellFormed state where
  acyclic _ ha := Nat.lt_irrefl _ (lt_of_leads rank h ha)
  scopes := ⟨fun a x hx => absurd hx (hscopes a x).1, fun a x hx => absurd hx (hscopes a x).2⟩
  matched := ⟨fun a x hx => absurd hx (hscopes a x).1, fun a x hx => absurd hx (hscopes a x).2⟩

/-! ## A read in front of a store -/

def stores (src dst : Fin n) (wcr : Bool) : Edge n Unit := ⟨src, dst, none, wcr, false⟩

/-- `w = p * q` and then `p = 0`: the node `p` is read by a tasklet that stores `w`, and
another tasklet stores `p`. -/
def readThenStore : State 5 Unit where
  kind := ![.access 0, .code, .access 1, .code, .access 0]
  topLevel _ := true
  edges := [stores 0 1 false, stores 1 2 false, stores 3 4 false]

theorem readThenStore_rank : ∀ e ∈ readThenStore.edges, e.src.val < e.dst.val := by
  simp [readThenStore, stores]

theorem readThenStore_wellFormed : WellFormed readThenStore := by
  apply wellFormed_of_rank Fin.val readThenStore_rank
  intro a _
  fin_cases a <;> simp [readThenStore]

theorem readThenStore_mixed : MixedConnected (fun _ _ => none) readThenStore := by
  intro container e he f hf hdst _ _ _ _ _ hne
  have hw : ∀ g ∈ readThenStore.edges, g.wcr = false := by simp [readThenStore, stores]
  exact absurd ((hw e he).trans (hw f hf).symm) hne

theorem readThenStore_forward :
    ContainersForward readThenStore (containersOf readThenStore)
      (orderWriters (fun _ _ => none) readThenStore) := by
  have hidle : orderWriters (fun _ _ => none) readThenStore = ⟨readThenStore.edges, []⟩ := by
    apply orderWriters_idle
    intro node
    fin_cases node <;> simp [storePairs, plainStores, readThenStore, stores, pairsOf]
  have hcontainers : containersOf readThenStore = [0, 1] := rfl
  have hfirst : accessesOf readThenStore 0 = [0, 4] := rfl
  have hsecond : accessesOf readThenStore 1 = [2] := rfl
  rw [hidle, hcontainers, ContainersForward, ContainersForward, hfirst, hsecond]
  refine ⟨⟨fun _ hl => ?_, trivial⟩, trivial, trivial⟩
  exact absurd (lt_of_leads Fin.val readThenStore_rank hl) (by decide)

theorem neZeroThree : @NeZero ℕ Zero.ofOfNat0 3 := ⟨by decide⟩

attribute [local instance] neZeroThree

/-- `p = 0` and then `p = p + x` as an accumulation into the same node. -/
def storeThenAccumulate : State 3 Unit where
  kind := ![.code, .code, .access 0]
  topLevel _ := true
  edges := [stores 0 2 false, stores 1 2 true]

end StatementOrder
