/-
# Depth-first post-order

A recursive walk over a graph: a node is marked, then its successors are visited, then it is
placed.  Nodes in progress are skipped.  Every successor is placed before its node, but for one that
leads back to it, and a list of nodes is its own order exactly where each node comes after its
successors.
-/
import Mathlib.Data.Finset.Card

open Relation List

namespace DepthFirst

variable {α : Type} [DecidableEq α]

/-- The marked nodes, those in progress and the placed ones in their order. -/
structure State (α : Type) where
  seen : List α
  onstack : List α
  ordered : List α

/-- A visit of a node, with a bound on the depth. -/
def visit (succ : α → List α) : ℕ → State α → α → State α
  | 0, s, _ => s
  | n + 1, s, a =>
    if a ∈ s.seen then s
    else
      let s' := (succ a).foldl (fun s b => if b ∈ s.onstack then s else visit succ n s b)
        ⟨a :: s.seen, a :: s.onstack, s.ordered⟩
      ⟨s'.seen, s'.onstack.erase a, s'.ordered ++ [a]⟩

/-- The walk from all nodes in turn. -/
def walkFrom (succ : α → List α) (n : ℕ) (nodes : List α) : State α :=
  nodes.foldl (visit succ n) ⟨[], [], []⟩

/-- The nodes in post-order. -/
def postOrder (succ : α → List α) (nodes : List α) : List α :=
  (walkFrom succ nodes.length nodes).ordered

/-- A successor. -/
def Edge (succ : α → List α) (a b : α) : Prop := b ∈ succ a

/-- What holds of a state: a placed node is after its successors, but for those that lead back to
it. -/
structure Inv (succ : α → List α) (nodes : List α) (s : State α) : Prop where
  seen_iff : ∀ a, a ∈ s.seen ↔ a ∈ s.ordered ∨ a ∈ s.onstack
  apart : ∀ a ∈ s.ordered, a ∉ s.onstack
  nodup : s.ordered.Nodup
  nodes : ∀ a ∈ s.seen, a ∈ nodes
  before : ∀ l a r, s.ordered = l ++ a :: r → ∀ b ∈ succ a, b ∈ l ∨ ReflTransGen (Edge succ) b a

/-- What visits do: nodes are marked and placed, and the nodes in progress are the same. -/
structure Grows (s s' : State α) : Prop where
  onstack : s'.onstack = s.onstack
  seen : ∀ a ∈ s.seen, a ∈ s'.seen
  ordered : ∃ l, s'.ordered = s.ordered ++ l

variable {succ : α → List α} {nodes : List α}

omit [DecidableEq α] in
theorem Grows.refl (s : State α) : Grows s s := ⟨rfl, fun _ h => h, [], (append_nil _).symm⟩

omit [DecidableEq α] in
theorem Grows.trans {s t u : State α} (h : Grows s t) (k : Grows t u) : Grows s u := by
  obtain ⟨l, hl⟩ := h.ordered
  obtain ⟨l', hl'⟩ := k.ordered
  exact ⟨k.onstack.trans h.onstack, fun a ha => k.seen a (h.seen a ha), l ++ l', by
    rw [hl', hl, append_assoc]⟩

/-- The number of nodes that are not marked. -/
def unseen (nodes : List α) (s : State α) : ℕ := (nodes.toFinset \ s.seen.toFinset).card

theorem unseen_le {s s' : State α} (h : Grows s s') : unseen nodes s' ≤ unseen nodes s := by
  apply Finset.card_le_card
  intro a ha
  rw [Finset.mem_sdiff, mem_toFinset, mem_toFinset] at ha ⊢
  exact ⟨ha.1, fun hs => ha.2 (h.seen a hs)⟩

variable {s : State α} {n : ℕ} {roots : List α}

theorem unseen_mark_lt {a : α} (ha : a ∈ nodes) (hs : a ∉ s.seen) (st : List α) (o : List α) :
    unseen nodes ⟨a :: s.seen, st, o⟩ < unseen nodes s := by
  apply Finset.card_lt_card
  rw [Finset.ssubset_iff_of_subset]
  · refine ⟨a, ?_, ?_⟩
    · rw [Finset.mem_sdiff, mem_toFinset, mem_toFinset]
      exact ⟨ha, hs⟩
    · simp
  · intro b hb
    rw [Finset.mem_sdiff, mem_toFinset, mem_toFinset] at hb ⊢
    exact ⟨hb.1, fun h => hb.2 (mem_cons_of_mem a h)⟩

theorem visit_of_seen {a : α} (h : a ∈ s.seen) : visit succ n s a = s := by
  cases n with
  | zero => rfl
  | succ n => exact if_pos h

/-- The spec of a visit with a depth: it marks the node and keeps the invariant. -/
def VisitSpec (succ : α → List α) (nodes : List α) (n : ℕ) : Prop :=
  ∀ (s : State α) (a : α), Inv succ nodes s → (∀ c ∈ s.onstack, ReflTransGen (Edge succ) c a) →
    a ∈ nodes →
    unseen nodes s ≤ n →
    Inv succ nodes (visit succ n s a) ∧ Grows s (visit succ n s a) ∧ a ∈ (visit succ n s a).seen

/-- The visits of some nodes. -/
theorem visits_spec (hn : VisitSpec succ nodes n) {bs : List α} :
    ∀ {s : State α}, Inv succ nodes s →
    (∀ b ∈ bs, ∀ c ∈ s.onstack, ReflTransGen (Edge succ) c b) → (∀ b ∈ bs, b ∈ nodes) →
      unseen nodes s ≤ n →
    ∃ s', bs.foldl (fun s b => if b ∈ s.onstack then s else visit succ n s b) s = s' ∧
      Inv succ nodes s' ∧
      Grows s s' ∧ ∀ b ∈ bs, b ∈ s'.seen := by
  induction bs with
  | nil => exact fun {s} hs _ _ _ => ⟨s, rfl, hs, Grows.refl s, fun b hb => absurd hb not_mem_nil⟩
  | cons b bs ih =>
    intro s hs hreach hnodes hunseen
    obtain ⟨t, ht, hinv, hgrows, hseen⟩ : ∃ t, (if b ∈ s.onstack then s else visit succ n s b) = t ∧
        Inv succ nodes t ∧ Grows s t ∧ b ∈ t.seen := by
      by_cases hb : b ∈ s.onstack
      · exact ⟨s, if_pos hb, hs, Grows.refl s, (hs.seen_iff b).2 (.inr hb)⟩
      · obtain ⟨h₁, h₂, h₃⟩ := hn s b hs (hreach b mem_cons_self) (hnodes b mem_cons_self) hunseen
        exact ⟨_, if_neg hb, h₁, h₂, h₃⟩
    have hreach' : ∀ b' ∈ bs, ∀ c ∈ t.onstack, ReflTransGen (Edge succ) c b' := by
      rw [hgrows.onstack]
      exact fun b' hb' => hreach b' (mem_cons_of_mem b hb')
    obtain ⟨u, hu, hinv', hgrows', hseen'⟩ :=
      ih hinv hreach' (fun b' hb' => hnodes b' (mem_cons_of_mem b hb'))
      ((unseen_le hgrows).trans hunseen)
    refine ⟨u, ?_, hinv', hgrows.trans hgrows', fun b' hb' => ?_⟩
    · rw [foldl_cons, ht]
      exact hu
    · rcases mem_cons.1 hb' with rfl | hb'
      · exact hgrows'.seen _ hseen
      · exact hseen' b' hb'

/-- **A visit of a node that is not marked**: it is placed last, and its successors are placed
before or in progress. -/
theorem visit_fresh (hsucc : ∀ a b, b ∈ succ a → b ∈ nodes) (hn : VisitSpec succ nodes n) {a : α}
    (hs : Inv succ nodes s) (hreach : ∀ c ∈ s.onstack, ReflTransGen (Edge succ) c a)
    (ha : a ∈ nodes)
    (hseen : a ∉ s.seen) (hunseen : unseen nodes s ≤ n + 1) :
    Inv succ nodes (visit succ (n + 1) s a) ∧ Grows s (visit succ (n + 1) s a) ∧
      ∃ l, (visit succ (n + 1) s a).ordered = s.ordered ++ l ++ [a] ∧
        ∀ b ∈ succ a, b ∈ s.ordered ++ l ∨ b ∈ a :: s.onstack := by
  have hmark : Inv succ nodes ⟨a :: s.seen, a :: s.onstack, s.ordered⟩ := by
    refine ⟨fun b => ?_, fun b hb => ?_, hs.nodup, fun b hb => ?_, hs.before⟩
    · rw [mem_cons, mem_cons, hs.seen_iff]
      exact or_left_comm
    · rw [mem_cons, not_or]
      exact ⟨fun h => hseen (h ▸ (hs.seen_iff b).2 (.inl hb)), hs.apart b hb⟩
    · rcases mem_cons.1 hb with rfl | hb
      · exact ha
      · exact hs.nodes b hb
  have hreach' : ∀ b ∈ succ a, ∀ c ∈ a :: s.onstack, ReflTransGen (Edge succ) c b := by
    intro b hb c hc
    rcases mem_cons.1 hc with rfl | hc
    · exact ReflTransGen.single hb
    · exact (hreach c hc).tail hb
  have hless : unseen nodes ⟨a :: s.seen, a :: s.onstack, s.ordered⟩ ≤ n :=
    Nat.le_of_lt_succ ((unseen_mark_lt ha hseen _ _).trans_le hunseen)
  obtain ⟨t, ht, hinv, hgrows, hsuccs⟩ := visits_spec hn hmark hreach' (hsucc a) hless
  have hvisit : visit succ (n + 1) s a = ⟨t.seen, t.onstack.erase a, t.ordered ++ [a]⟩ := by
    rw [visit, if_neg hseen]
    simp only [ht]
  have herase : t.onstack.erase a = s.onstack := by rw [hgrows.onstack, erase_cons_head]
  have hnot : a ∉ t.ordered := fun h => hinv.apart a h (hgrows.onstack ▸ mem_cons_self)
  have hstack : a ∉ s.onstack := fun h => hseen ((hs.seen_iff a).2 (.inr h))
  obtain ⟨l, hl⟩ := hgrows.ordered
  have hplaced : ∀ b ∈ succ a, b ∈ t.ordered ∨ b ∈ a :: s.onstack := by
    intro b hb
    have h := (hinv.seen_iff b).1 (hsuccs b hb)
    rw [hgrows.onstack] at h
    exact h
  rw [hvisit, herase]
  refine ⟨⟨fun b => ?_, fun b hb => ?_, ?_, hinv.nodes, ?_⟩,
    ⟨rfl, fun b hb => hgrows.seen b (mem_cons_of_mem a hb), l ++ [a], by rw [hl, append_assoc]⟩,
    l, by rw [hl], fun b hb => hl ▸ hplaced b hb⟩
  · rw [hinv.seen_iff, hgrows.onstack, mem_append, mem_singleton, mem_cons]
    exact or_assoc.symm
  · rcases mem_append.1 hb with hb | hb
    · exact fun h => hinv.apart b hb (hgrows.onstack ▸ mem_cons_of_mem a h)
    · exact mem_singleton.1 hb ▸ hstack
  · exact nodup_append.2 ⟨hinv.nodup, nodup_singleton a, fun b hb c hc h =>
      hnot (mem_singleton.1 hc ▸ h ▸ hb)⟩
  · intro l' x r heq b hb
    rcases eq_nil_or_concat r with rfl | ⟨r', y, rfl⟩
    · -- the node itself: a successor in progress leads to it
      obtain ⟨rfl, hx⟩ := append_inj' heq rfl
      obtain rfl : a = x := singleton_inj.1 hx
      refine (hplaced b hb).imp_right fun h => ?_
      rcases mem_cons.1 h with rfl | h
      · exact ReflTransGen.refl
      · exact hreach b h
    · rw [concat_eq_append, ← cons_append, ← append_assoc] at heq
      exact hinv.before l' x r' (append_inj' heq rfl).1 b hb

/-- **Enough depth**: a visit with the number of unmarked nodes. -/
theorem visitSpec (hsucc : ∀ a b, b ∈ succ a → b ∈ nodes) (n : ℕ) : VisitSpec succ nodes n := by
  induction n with
  | zero =>
    intro s a hs _ ha hunseen
    have hseen : a ∈ s.seen := by
      by_contra h
      have hlt := unseen_mark_lt ha h s.onstack s.ordered
      omega
    exact ⟨hs, Grows.refl s, hseen⟩
  | succ n ih =>
    intro s a hs hreach ha hunseen
    by_cases hseen : a ∈ s.seen
    · rw [visit_of_seen hseen]
      exact ⟨hs, Grows.refl s, hseen⟩
    · obtain ⟨hinv, hgrows, l, hl, -⟩ := visit_fresh hsucc ih hs hreach ha hseen hunseen
      refine ⟨hinv, hgrows, (hinv.seen_iff a).2 (.inl ?_)⟩
      rw [hl]
      exact mem_append_right _ mem_cons_self

omit [DecidableEq α] in
theorem inv_start : Inv succ nodes ⟨[], [], []⟩ :=
  ⟨by simp, by simp, nodup_nil, by simp, fun l a r h => absurd h (by simp)⟩

/-- The walk from some nodes. -/
theorem walk_spec (hsucc : ∀ a b, b ∈ succ a → b ∈ nodes) : ∀ {s : State α},
    Inv succ nodes s → s.onstack = [] → (∀ a ∈ roots, a ∈ nodes) → unseen nodes s ≤ n →
      Inv succ nodes (roots.foldl (visit succ n) s) ∧ Grows s (roots.foldl (visit succ n) s) ∧
        ∀ a ∈ roots, a ∈ (roots.foldl (visit succ n) s).seen := by
  induction roots with
  | nil => exact fun {s} hs _ _ _ => ⟨hs, Grows.refl s, fun a ha => absurd ha not_mem_nil⟩
  | cons a roots ih =>
    intro s hs hstack hroots hunseen
    have hreach : ∀ c ∈ s.onstack, ReflTransGen (Edge succ) c a :=
      fun c hc => absurd (hstack ▸ hc) not_mem_nil
    obtain ⟨hinv, hgrows, hseen⟩ := visitSpec hsucc n s a hs hreach (hroots a mem_cons_self) hunseen
    obtain ⟨hinv', hgrows', hseen'⟩ := ih hinv (hgrows.onstack.trans hstack)
      (fun b hb => hroots b (mem_cons_of_mem a hb)) ((unseen_le hgrows).trans hunseen)
    refine ⟨hinv', hgrows.trans hgrows', fun b hb => ?_⟩
    rcases mem_cons.1 hb with rfl | hb
    · exact hgrows'.seen _ hseen
    · exact hseen' b hb

theorem unseen_start_le : unseen nodes ⟨[], [], []⟩ ≤ nodes.length :=
  (Finset.card_le_card Finset.sdiff_subset).trans (toFinset_card_le nodes)

/-- **The post-order**: every node once, and every successor before its node unless it leads back to
it. -/
theorem postOrder_spec (hsucc : ∀ a b, b ∈ succ a → b ∈ nodes) : (postOrder succ nodes).Nodup ∧
    (∀ a, a ∈ postOrder succ nodes ↔ a ∈ nodes) ∧
    ∀ l a r, postOrder succ nodes = l ++ a :: r → ∀ b ∈ succ a, b ∈ l ∨
      ReflTransGen (Edge succ) b a := by
  obtain ⟨hinv, hgrows, hseen⟩ := walk_spec hsucc inv_start rfl (fun _ h => h) unseen_start_le
  have hstack := hgrows.onstack
  refine ⟨hinv.nodup, fun a => ⟨fun ha => ?_, fun ha => ?_⟩, hinv.before⟩
  · exact hinv.nodes a ((hinv.seen_iff a).2 (.inl ha))
  · have h := (hinv.seen_iff a).1 (hseen a ha)
    rw [hstack] at h
    exact h.resolve_right not_mem_nil

/-- Nodes that come after their successors are placed as they come. -/
theorem walk_of_inOrder : ∀ {s : State α}, s.onstack = [] →
    (∀ l a r, roots = l ++ a :: r → (∀ b ∈ succ a, b = a ∨ b ∈ s.seen ∨ b ∈ l) ∧
      a ∉ s.seen ∧ a ∉ l) →
      (roots.foldl (visit succ (n + 1)) s).ordered = s.ordered ++ roots := by
  induction roots with
  | nil => exact fun _ _ => (append_nil _).symm
  | cons a roots ih =>
    intro s hstack h
    obtain ⟨hsucc, hseen, -⟩ := h [] a roots rfl
    -- every successor is the node itself or has been placed
    have hfold : ∀ {bs : List α}, (∀ b ∈ bs, b = a ∨ b ∈ s.seen) →
        bs.foldl (fun s b => if b ∈ s.onstack then s else visit succ n s b)
          ⟨a :: s.seen, a :: s.onstack, s.ordered⟩ =
          ⟨a :: s.seen, a :: s.onstack, s.ordered⟩ := by
      intro bs
      induction bs with
      | nil => exact fun _ => rfl
      | cons b bs ihb =>
        intro hbs
        have hb : (if b ∈ a :: s.onstack then (⟨a :: s.seen, a :: s.onstack, s.ordered⟩ : State α)
            else visit succ n ⟨a :: s.seen, a :: s.onstack, s.ordered⟩ b) =
              ⟨a :: s.seen, a :: s.onstack, s.ordered⟩ := by
          split
          · rfl
          · rename_i hnot
            refine visit_of_seen (mem_cons_of_mem a ?_)
            exact (hbs b mem_cons_self).resolve_left fun heq => hnot (heq ▸ mem_cons_self)
        rw [foldl_cons]
        simp only [hb]
        exact ihb fun b' hb' => hbs b' (mem_cons_of_mem b hb')
    have hvisit : visit succ (n + 1) s a = ⟨a :: s.seen, s.onstack, s.ordered ++ [a]⟩ := by
      rw [visit, if_neg hseen, hfold fun b hb => (hsucc b hb).imp_right fun h =>
        h.resolve_right not_mem_nil]
      simp only [erase_cons_head]
    rw [foldl_cons, hvisit, ih (by exact hstack), append_assoc]
    · rfl
    · intro l b r heq
      obtain ⟨hb, hbs, hbl⟩ := h (a :: l) b r (by rw [heq]; rfl)
      rw [mem_cons, not_or] at hbl
      refine ⟨fun c hc => (hb c hc).imp_right fun h => ?_, ?_, hbl.2⟩
      · rcases h with h | h
        · exact .inl (mem_cons_of_mem a h)
        · rcases mem_cons.1 h with rfl | h
          · exact .inl mem_cons_self
          · exact .inr h
      · rw [mem_cons, not_or]
        exact ⟨hbl.1, hbs⟩

/-- A walk that places the nodes as they come: each has its successors before it. -/
theorem inOrder_of_walk (hsucc : ∀ a b, b ∈ succ a → b ∈ nodes) : ∀ {s : State α},
    Inv succ nodes s → s.onstack = [] → (∀ a ∈ roots, a ∈ nodes) → unseen nodes s ≤ n →
      (s.ordered ++ roots).Nodup → (roots.foldl (visit succ n) s).ordered = s.ordered ++ roots →
      ∀ l a r, roots = l ++ a :: r → ∀ b ∈ succ a, b = a ∨ b ∈ s.ordered ∨ b ∈ l := by
  induction roots with
  | nil => exact fun _ _ _ _ _ _ l a r h => absurd h (by simp)
  | cons a roots ih =>
    intro s hs hstack hroots hunseen hnodup hwalk
    have ha : a ∉ s.ordered := fun h => (nodup_append.1 hnodup).2.2 a h a mem_cons_self rfl
    have hseen : a ∉ s.seen := by
      rw [hs.seen_iff, hstack]
      exact fun h => h.elim ha not_mem_nil
    have hreach : ∀ c ∈ s.onstack, ReflTransGen (Edge succ) c a :=
      fun c hc => absurd (hstack ▸ hc) not_mem_nil
    cases n with
    | zero =>
      have hlt := unseen_mark_lt (hroots a mem_cons_self) hseen s.onstack s.ordered
      omega
    | succ n =>
      obtain ⟨hinv, hgrows, k, hk, hplaced⟩ :=
        visit_fresh hsucc (visitSpec hsucc n) hs hreach (hroots a mem_cons_self) hseen hunseen
      have hroots' : ∀ b ∈ roots, b ∈ nodes := fun b hb => hroots b (mem_cons_of_mem a hb)
      obtain ⟨-, hrest, -⟩ := walk_spec hsucc hinv (hgrows.onstack.trans hstack) hroots'
        ((unseen_le hgrows).trans hunseen)
      obtain ⟨m, hm⟩ := hrest.ordered
      -- nothing is placed before the node in its visit
      have hnil : k = [] := by
        rw [foldl_cons, hm, hk, append_assoc, append_assoc, append_cancel_left_eq] at hwalk
        cases k with
        | nil => rfl
        | cons x k =>
          obtain ⟨rfl, -⟩ := List.cons.inj hwalk
          have hnodup' := hinv.nodup
          rw [hk, append_assoc] at hnodup'
          have hx := (nodup_append.1 hnodup').2.1
          rw [cons_append, nodup_cons] at hx
          exact absurd (mem_append_right k mem_cons_self) hx.1
      subst hnil
      rw [append_nil] at hk hplaced
      rw [hstack] at hplaced
      have happend : s.ordered ++ a :: roots = (visit succ (n + 1) s a).ordered ++ roots := by
        rw [hk, append_assoc]
        rfl
      intro l b r heq c hc
      cases l with
      | nil =>
        obtain ⟨rfl, rfl⟩ := List.cons.inj heq
        rcases hplaced c hc with h | h
        · exact .inr (.inl h)
        · exact .inl (mem_singleton.1 h)
      | cons x l =>
        obtain ⟨hax, heq'⟩ := List.cons.inj heq
        subst hax
        rw [foldl_cons] at hwalk
        rcases ih hinv (hgrows.onstack.trans hstack) hroots' ((unseen_le hgrows).trans hunseen)
          (happend ▸ hnodup)
          (hwalk.trans happend) l b r heq' c hc with h | h | h
        · exact .inl h
        · rw [hk] at h
          rcases mem_append.1 h with h | h
          · exact .inr (.inl h)
          · exact .inr (.inr (mem_singleton.1 h ▸ mem_cons_self))
        · exact .inr (.inr (mem_cons_of_mem _ h))

/-- **A list of nodes is its own post-order** exactly where each node comes after its successors. -/
theorem postOrder_eq_iff (hsucc : ∀ a b, b ∈ succ a → b ∈ nodes) (hnodup : nodes.Nodup) :
    postOrder succ nodes = nodes ↔ ∀ l a r, nodes = l ++ a :: r → ∀ b ∈ succ a, b = a ∨ b ∈ l := by
  constructor
  · intro h l a r heq b hb
    have hwalk := inOrder_of_walk hsucc inv_start rfl (fun _ h => h) unseen_start_le
      (by exact hnodup) h l a r heq b hb
    exact hwalk.imp_right fun h => h.resolve_left not_mem_nil
  · intro h
    cases hlen : nodes.length with
    | zero =>
      rw [length_eq_zero_iff.1 hlen]
      rfl
    | succ n =>
      rw [postOrder, walkFrom, hlen]
      refine walk_of_inOrder rfl fun l a r heq => ⟨fun b hb => (h l a r heq b hb).imp_right .inr,
        not_mem_nil, ?_⟩
      rw [heq] at hnodup
      exact fun hmem => (nodup_append.1 hnodup).2.2 a hmem a mem_cons_self rfl

end DepthFirst
