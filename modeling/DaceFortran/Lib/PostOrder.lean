/-
# Post-order with an explicit stack

A walk over a graph with a stack of nodes, each pushed unexpanded and, below its
successors, once more expanded; a node is placed when its expanded entry comes to the
top.  Nothing marks a node while it is in progress.  The walk comes to an end exactly
when no cycle can be reached (`terminates_iff`), and then it has placed what can be
reached, each node once and after its successors (`exists_ordered`).
-/
import Mathlib.Data.Fintype.Order

open Relation List

namespace PostOrder

variable {α : Type*}

/-! ## The walk -/

/-- A graph: the nodes, and the successors of each (which need not be nodes). -/
structure Graph (α : Type*) where
  node : α → Bool
  succ : α → List α

/-- The nodes placed so far, in order, and the stack with its top first. -/
structure State (α : Type*) where
  order : List α
  stack : List (α × Bool)

variable [BEq α] [LawfulBEq α] (G : Graph α)

/-- The entries for the successors of a node that are left to place. -/
def Graph.pending (order : List α) (a : α) : List α :=
  (G.succ a).filter fun b => decide (b ∉ order) && G.node b

/-- One turn of the loop. -/
def step (s : State α) : State α :=
  match s.stack with
  | [] => s
  | (a, expanded) :: rest =>
    if a ∈ s.order ∨ G.node a = false then { s with stack := rest }
    else if expanded then ⟨s.order ++ [a], rest⟩
    else { s with stack := (G.pending s.order a).map (fun b => (b, false)) ++ (a, true) :: rest }

/-- The walk from some roots, the first on top. -/
def start (roots : List α) : State α := ⟨[], roots.map fun a => (a, false)⟩

/-- The loop ends with this order. -/
def Emits (roots order : List α) : Prop :=
  ∃ n, (step G)^[n] (start roots) = ⟨order, []⟩

/-! ## What is reached -/

/-- A successor that is a node. -/
def Graph.Edge (a b : α) : Prop := b ∈ G.succ a ∧ G.node b = true

/-- Nodes reached from the roots. -/
inductive Graph.Reached (roots : List α) : α → Prop
  | root {a : α} : a ∈ roots → G.node a = true → Graph.Reached roots a
  | edge {a b : α} : Graph.Reached roots a → G.Edge a b → Graph.Reached roots b

/-- No reached node leads back to itself. -/
def Graph.Acyclic (roots : List α) : Prop :=
  ∀ a, G.Reached roots a → ¬ TransGen G.Edge a a

/-- The order asked for: what is reached, once each, and a successor first unless it leads back. -/
structure Graph.Ordered (roots order : List α) : Prop where
  nodup : order.Nodup
  mem_iff : ∀ a, a ∈ order ↔ G.Reached roots a
  before : ∀ l a r, order = l ++ a :: r → ∀ b, G.Edge a b → ¬ TransGen G.Edge b a → b ∈ l

variable {G} {roots : List α}

variable {a : α} {order : List α} {rest : List (α × Bool)} {s : State α}

omit [BEq α] [LawfulBEq α] in
theorem Graph.Reached.node (h : G.Reached roots a) : G.node a = true := by
  cases h with
  | root _ h => exact h
  | edge _ h => exact h.2

theorem mem_pending {a b : α} :
    b ∈ G.pending order a ↔ G.Edge a b ∧ b ∉ order := by
  unfold Graph.pending Graph.Edge
  rw [mem_filter, Bool.and_eq_true, decide_eq_true_eq]
  tauto

/-! ## A turn of the loop -/

theorem step_skip {x : Bool}
    (hs : s.stack = (a, x) :: rest) (h : a ∈ s.order ∨ G.node a = false) :
    step G s = { s with stack := rest } := by
  unfold step
  rw [hs]
  exact if_pos h

theorem step_place
    (hs : s.stack = (a, true) :: rest) (h : ¬ (a ∈ s.order ∨ G.node a = false)) :
    step G s = ⟨s.order ++ [a], rest⟩ := by
  unfold step
  rw [hs]
  exact (if_neg h).trans (if_pos rfl)

theorem step_expand
    (hs : s.stack = (a, false) :: rest) (h : ¬ (a ∈ s.order ∨ G.node a = false)) :
    step G s =
      { s with stack := (G.pending s.order a).map (fun b => (b, false)) ++ (a, true) :: rest } := by
  unfold step
  rw [hs]
  exact (if_neg h).trans (if_neg Bool.false_ne_true)

/-! ## A cycle is never left -/

/-- The node leads to a cycle. -/
def Graph.Cyclic (G : Graph α) (a : α) : Prop :=
  G.node a = true ∧ ∃ b, ReflTransGen G.Edge a b ∧ TransGen G.Edge b b

omit [BEq α] [LawfulBEq α] in
theorem Graph.Cyclic.succ (h : G.Cyclic a) : ∃ b, G.Edge a b ∧ G.Cyclic b := by
  obtain ⟨-, c, hac, hcc⟩ := h
  rcases ReflTransGen.cases_head hac with rfl | ⟨b, hab, hbc⟩
  · obtain ⟨b, hab, hba⟩ := TransGen.head'_iff.mp hcc
    exact ⟨b, hab, hab.2, a, hba, hcc⟩
  · exact ⟨b, hab, hab.2, c, hbc, hcc⟩

/-- Nothing that leads to a cycle is placed, and the first such entry of the stack is unexpanded. -/
structure Stuck (G : Graph α) (s : State α) : Prop where
  order : ∀ a ∈ s.order, ¬ G.Cyclic a
  stack : ∃ l a r, s.stack = l ++ (a, false) :: r ∧ G.Cyclic a ∧ ∀ e ∈ l, ¬ G.Cyclic e.1

omit [BEq α] [LawfulBEq α] in
/-- Unexpanded entries on top of a stack: the first that leads to a cycle is one of them, or what
was first before. -/
theorem exists_first_cyclic (bs : List α) (rest : List (α × Bool))
    (h : (∃ b ∈ bs, G.Cyclic b) ∨
      ∃ l a r, rest = l ++ (a, false) :: r ∧ G.Cyclic a ∧ ∀ e ∈ l, ¬ G.Cyclic e.1) :
    ∃ l a r, bs.map (fun b => (b, false)) ++ rest = l ++ (a, false) :: r ∧ G.Cyclic a ∧
      ∀ e ∈ l, ¬ G.Cyclic e.1 := by
  induction bs with
  | nil => simpa using h
  | cons b bs ih =>
    by_cases hb : G.Cyclic b
    · exact ⟨[], b, bs.map (fun b => (b, false)) ++ rest, rfl, hb, by simp⟩
    · have htail : (∃ b ∈ bs, G.Cyclic b) ∨
          ∃ l a r, rest = l ++ (a, false) :: r ∧ G.Cyclic a ∧ ∀ e ∈ l, ¬ G.Cyclic e.1 := by
        rcases h with ⟨c, hc, hcyc⟩ | h
        · rcases mem_cons.mp hc with rfl | hc
          · exact absurd hcyc hb
          · exact Or.inl ⟨c, hc, hcyc⟩
        · exact Or.inr h
      obtain ⟨l, a, r, he, ha, hl⟩ := ih htail
      refine ⟨(b, false) :: l, a, r, by rw [map_cons, cons_append, he, cons_append],
        ha, ?_⟩
      intro e hmem
      rcases mem_cons.mp hmem with rfl | hmem
      · exact hb
      · exact hl e hmem

theorem Stuck.step (h : Stuck G s) : Stuck G (step G s) := by
  obtain ⟨horder, l, a, r, hs, ha, hl⟩ := h
  cases l with
  | nil =>
    have hnot : ¬ (a ∈ s.order ∨ G.node a = false) := by
      rintro (hmem | hnode)
      · exact horder a hmem ha
      · rw [ha.1] at hnode
        cases hnode
    rw [step_expand hs hnot]
    -- the first entry leads to a cycle through a successor, which is not placed either
    obtain ⟨b, hab, hb⟩ := ha.succ
    refine ⟨horder, exists_first_cyclic _ _ (Or.inl ⟨b, ?_, hb⟩)⟩
    exact mem_pending.mpr ⟨hab, fun hmem => horder b hmem hb⟩
  | cons e l =>
    obtain ⟨c, x⟩ := e
    have hc : ¬ G.Cyclic c := hl (c, x) mem_cons_self
    have hrest : ∃ l' a' r', l ++ (a, false) :: r = l' ++ (a', false) :: r' ∧ G.Cyclic a' ∧
        ∀ e ∈ l', ¬ G.Cyclic e.1 :=
      ⟨l, a, r, rfl, ha, fun e he => hl e (mem_cons_of_mem _ he)⟩
    by_cases hskip : c ∈ s.order ∨ G.node c = false
    · rw [step_skip hs hskip]
      exact ⟨horder, hrest⟩
    · cases x with
      | true =>
        rw [step_place hs hskip]
        refine ⟨?_, hrest⟩
        intro d hd
        rcases mem_append.mp hd with hd | hd
        · exact horder d hd
        · rw [mem_singleton.mp hd]
          exact hc
      | false =>
        rw [step_expand hs hskip]
        refine ⟨horder, exists_first_cyclic _ _ (Or.inr ?_)⟩
        obtain ⟨l', a', r', he, ha', hl'⟩ := hrest
        refine ⟨(c, true) :: l', a', r', by rw [cons_append, ← he]; rfl, ha', ?_⟩
        intro e hmem
        rcases mem_cons.mp hmem with rfl | hmem
        · exact hc
        · exact hl' e hmem

theorem Stuck.iterate (h : Stuck G s) (n : ℕ) : Stuck G ((PostOrder.step G)^[n] s) := by
  induction n generalizing s with
  | zero => exact h
  | succ n ih => exact ih h.step

omit [BEq α] [LawfulBEq α] in
/-- What leads to a cycle is reached through a root that does. -/
theorem Graph.Reached.exists_root (h : G.Reached roots a) (hc : G.Cyclic a) :
    ∃ b ∈ roots, G.Cyclic b := by
  induction h with
  | root hmem _ => exact ⟨_, hmem, hc⟩
  | @edge a b ha hab ih =>
    obtain ⟨-, c, hbc, hcc⟩ := hc
    exact ih ⟨ha.node, c, ReflTransGen.head hab hbc, hcc⟩

/-- **A walk that ends has no cycle to reach.** -/
theorem acyclic_of_emits (h : Emits G roots order) : G.Acyclic roots := by
  intro a ha hcyc
  obtain ⟨n, hn⟩ := h
  obtain ⟨b, hb, hcb⟩ := ha.exists_root ⟨ha.node, a, ReflTransGen.refl, hcyc⟩
  have hfirst := exists_first_cyclic (G := G) roots [] (Or.inl ⟨b, hb, hcb⟩)
  rw [append_nil] at hfirst
  have hstuck : Stuck G (start roots) := ⟨by simp [start], hfirst⟩
  obtain ⟨-, l, c, r, hs, -, -⟩ := hstuck.iterate n
  rw [hn] at hs
  exact absurd hs (by simp)

/-! ## Without a cycle -/

/-- What has been placed is reached, once each, every successor before. -/
structure Good (G : Graph α) (roots order : List α) : Prop where
  nodup : order.Nodup
  reached : ∀ a ∈ order, G.Reached roots a
  closed : ∀ l a r, order = l ++ a :: r → ∀ b, G.Edge a b → b ∈ l

omit [BEq α] [LawfulBEq α] in
theorem Good.nil : Good G roots [] :=
  ⟨nodup_nil, by simp, by intro l a r h; simp at h⟩

omit [BEq α] [LawfulBEq α] in
theorem Good.snoc (h : Good G roots order) (ha : G.Reached roots a)
    (hnew : a ∉ order) (hsucc : ∀ b, G.Edge a b → b ∈ order) : Good G roots (order ++ [a]) := by
  refine ⟨?_, ?_, ?_⟩
  · rw [nodup_append]
    refine ⟨h.nodup, nodup_singleton a, ?_⟩
    intro b hb c hc hbc
    rw [mem_singleton] at hc
    exact hnew (hc ▸ hbc ▸ hb)
  · intro b hb
    rcases mem_append.mp hb with hb | hb
    · exact h.reached b hb
    · rw [mem_singleton.mp hb]
      exact ha
  · intro l c r he b hcb
    rcases eq_nil_or_concat r with rfl | ⟨r, d, rfl⟩
    · obtain ⟨rfl, hlast⟩ := append_inj' he rfl
      obtain rfl : a = c := by simpa using hlast
      exact hsucc b hcb
    · have he' : order ++ [a] = (l ++ c :: r) ++ [d] := by simpa using he
      obtain ⟨hord, -⟩ := append_inj' he' rfl
      exact h.closed l c r hord b hcb

/-- From one stack to another the order has grown. -/
def Leads (G : Graph α) (roots : List α) (s s' : State α) : Prop :=
  (∃ n, (step G)^[n] s = s') ∧ Good G roots s'.order ∧ s.order ⊆ s'.order

theorem Leads.trans {s t u : State α} (h : Leads G roots s t) (k : Leads G roots t u) :
    Leads G roots s u := by
  obtain ⟨⟨n, hn⟩, -, hsub⟩ := h
  obtain ⟨⟨m, hm⟩, hgood, hsub'⟩ := k
  refine ⟨⟨m + n, ?_⟩, hgood, List.Subset.trans hsub hsub'⟩
  rw [Function.iterate_add_apply, hn, hm]

/-- Nodes one after another, if each of them leads to its placement. -/
theorem leads_all {bs : List α} {p : α → Prop}
    (hall : ∀ b ∈ bs, ∀ s rest, s.stack = (b, false) :: rest → Good G roots s.order →
      ∃ order, (p b → b ∈ order) ∧ Leads G roots s ⟨order, rest⟩)
    (hs : s.stack = bs.map (fun b => (b, false)) ++ rest)
    (hgood : Good G roots s.order) :
    ∃ order, (∀ b ∈ bs, p b → b ∈ order) ∧ Leads G roots s ⟨order, rest⟩ := by
  induction bs generalizing s with
  | nil =>
    have he : s = ⟨s.order, rest⟩ := by
      rw [map_nil, nil_append] at hs
      rw [← hs]
    exact ⟨s.order, by simp, ⟨0, he⟩, hgood, List.Subset.refl _⟩
  | cons b bs ih =>
    obtain ⟨order, hb, h⟩ := hall b mem_cons_self s _ hs hgood
    obtain ⟨order', hbs, h'⟩ :=
      ih (fun c hc => hall c (mem_cons_of_mem _ hc)) (s := ⟨order, _⟩) rfl h.2.1
    refine ⟨order', ?_, h.trans h'⟩
    intro c hc hp
    rcases mem_cons.mp hc with rfl | hc
    · exact h'.2.2 (hb hp)
    · exact hbs c hc hp

omit [BEq α] [LawfulBEq α] in
/-- Among finitely many reached nodes without a cycle, edges cannot be followed for ever. -/
theorem wellFounded_edge (hfin : {a | G.node a = true}.Finite) (hacyc : G.Acyclic roots) :
    WellFounded fun a b : {a // G.Reached roots a} => TransGen G.Edge b.1 a.1 := by
  have : Finite {a // G.Reached roots a} :=
    (hfin.subset fun a ha => Graph.Reached.node ha).to_subtype
  have : IsTrans {a // G.Reached roots a} fun a b => TransGen G.Edge b.1 a.1 :=
    ⟨fun _ _ _ hab hbc => hbc.trans hab⟩
  have : Std.Irrefl fun a b : {a // G.Reached roots a} => TransGen G.Edge b.1 a.1 :=
    ⟨fun a => hacyc a.1 a.2⟩
  exact Finite.wellFounded_of_trans_of_irrefl _

/-- **A reached node is placed**, its successors first. -/
theorem leads_reached (hfin : {a | G.node a = true}.Finite) (hacyc : G.Acyclic roots)
    (x : {a // G.Reached roots a}) :
    ∀ s rest, s.stack = (x.1, false) :: rest → Good G roots s.order →
      ∃ order, x.1 ∈ order ∧ Leads G roots s ⟨order, rest⟩ := by
  induction x using (wellFounded_edge hfin hacyc).induction with
  | h x ih =>
    obtain ⟨a, ha⟩ := x
    intro s rest hs hgood
    by_cases hskip : a ∈ s.order ∨ G.node a = false
    · have hmem : a ∈ s.order := hskip.resolve_right (by rw [ha.node]; simp)
      exact ⟨s.order, hmem, ⟨1, step_skip hs hskip⟩, hgood, List.Subset.refl _⟩
    · have hnew : a ∉ s.order := fun h => hskip (Or.inl h)
      -- the successors, then the expanded entry of the node itself
      have hsucc : ∀ b ∈ G.pending s.order a, ∀ t rest, t.stack = (b, false) :: rest →
          Good G roots t.order → ∃ order, (True → b ∈ order) ∧ Leads G roots t ⟨order, rest⟩ := by
        intro b hb t rest ht hgood
        have hab := (mem_pending.mp hb).1
        obtain ⟨order, hmem, h⟩ := ih ⟨b, ha.edge hab⟩ (TransGen.single hab) t rest ht hgood
        exact ⟨order, fun _ => hmem, h⟩
      obtain ⟨order, hbs, hlead⟩ := leads_all hsucc
        (s := { s with stack := (G.pending s.order a).map (fun b => (b, false)) ++
          (a, true) :: rest })
        rfl hgood
      have hexpand : Leads G roots s ⟨order, (a, true) :: rest⟩ := by
        obtain ⟨⟨n, hn⟩, hrest⟩ := hlead
        refine ⟨⟨n + 1, ?_⟩, hrest⟩
        rw [Function.iterate_succ_apply, step_expand hs hskip, hn]
      have hdone : ∀ b, G.Edge a b → b ∈ order := by
        intro b hab
        by_cases hb : b ∈ s.order
        · exact hexpand.2.2 hb
        · exact hbs b (mem_pending.mpr ⟨hab, hb⟩) trivial
      by_cases hmem : a ∈ order
      · have hskip' : step G ⟨order, (a, true) :: rest⟩ = ⟨order, rest⟩ :=
          step_skip (s := ⟨order, (a, true) :: rest⟩) rfl (Or.inl hmem)
        exact ⟨order, hmem, hexpand.trans ⟨⟨1, hskip'⟩, hexpand.2.1, List.Subset.refl _⟩⟩
      · have hplace : ¬ (a ∈ order ∨ G.node a = false) := by
          rintro (h | h)
          · exact hmem h
          · exact hskip (Or.inr h)
        have hstep : step G ⟨order, (a, true) :: rest⟩ = ⟨order ++ [a], rest⟩ :=
          step_place (s := ⟨order, (a, true) :: rest⟩) rfl hplace
        refine ⟨order ++ [a], by simp, hexpand.trans ⟨⟨1, hstep⟩, ?_, ?_⟩⟩
        · exact hexpand.2.1.snoc ha hmem hdone
        · exact subset_append_left _ _

/-- Roots that are not nodes are skipped. -/
theorem leads_root (hfin : {a | G.node a = true}.Finite) (hacyc : G.Acyclic roots)
    (ha : a ∈ roots) (s : State α) (rest : List (α × Bool)) (hs : s.stack = (a, false) :: rest)
    (hgood : Good G roots s.order) :
    ∃ order, (G.node a = true → a ∈ order) ∧ Leads G roots s ⟨order, rest⟩ := by
  by_cases hnode : G.node a = true
  · obtain ⟨order, hmem, h⟩ := leads_reached hfin hacyc ⟨a, .root ha hnode⟩ s rest hs hgood
    exact ⟨order, fun _ => hmem, h⟩
  · have hfalse : G.node a = false := by simpa using hnode
    refine ⟨s.order, fun h => absurd h hnode, ⟨1, step_skip hs (Or.inr hfalse)⟩, hgood, ?_⟩
    exact List.Subset.refl _

theorem leads_roots (hfin : {a | G.node a = true}.Finite) (hacyc : G.Acyclic roots)
    {bs : List α} (hbs : bs ⊆ roots) (hs : s.stack = bs.map fun b => (b, false))
    (hgood : Good G roots s.order) :
    ∃ order, (∀ b ∈ bs, G.node b = true → b ∈ order) ∧ Leads G roots s ⟨order, []⟩ := by
  refine leads_all ?_ (by rw [hs, append_nil]) hgood
  exact fun b hb s rest hs hgood => leads_root hfin hacyc (hbs hb) s rest hs hgood

omit [BEq α] [LawfulBEq α] in
/-- A closed order with the roots has all that is reached. -/
theorem Good.ordered (h : Good G roots order)
    (hroots : ∀ b ∈ roots, G.node b = true → b ∈ order) : G.Ordered roots order := by
  refine ⟨h.nodup, fun a => ⟨h.reached a, ?_⟩, fun l a r he b hab _ => h.closed l a r he b hab⟩
  intro ha
  induction ha with
  | root hmem hnode => exact hroots _ hmem hnode
  | @edge a b _ hab ih =>
    obtain ⟨l, r, he⟩ := append_of_mem ih
    rw [he]
    exact mem_append_left _ (h.closed l a r he b hab)

/-- **Without a cycle the walk ends**, in the order asked for. -/
theorem exists_ordered (hfin : {a | G.node a = true}.Finite) (hacyc : G.Acyclic roots) :
    ∃ order, Emits G roots order ∧ G.Ordered roots order := by
  obtain ⟨order, hroots, ⟨n, hn⟩, hgood, -⟩ :=
    leads_roots hfin hacyc (List.Subset.refl roots) (s := start roots) rfl Good.nil
  exact ⟨order, ⟨n, hn⟩, hgood.ordered hroots⟩

/-- **The walk ends in the order asked for exactly when it can reach no cycle.** -/
theorem emits_ordered_iff (hfin : {a | G.node a = true}.Finite) :
    (∃ order, Emits G roots order ∧ G.Ordered roots order) ↔ G.Acyclic roots := by
  constructor
  · rintro ⟨order, h, -⟩
    exact acyclic_of_emits h
  · exact exists_ordered hfin

end PostOrder
