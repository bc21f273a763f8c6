/-
# When pruning keeps the program

`prune_unused_objects` follows the names in the scopes it walks, but not those of
the declaration statements of module variables, nor the type of a component it
touches, nor the components that constructors supply by position; it deletes the
assignments of a pointer it does not find used, whatever the pointer is.
`pruneUnusedObjects_preserves_iff` says that nothing else goes wrong.
-/
import DaceFortran.Pruning.Survivors

open List

namespace Pruning

open Visit

variable {p : Program} {K : List Spec}

/-! ## Liveness -/

/-- The object survives: it and every scope around it are used. -/
def Program.Live (p : Program) (K : List Spec) (s : Spec) : Prop :=
  ∀ a, a <+: s → p.prunable a = true → p.Used K a

variable {s scope n c : Spec} {e : Entity}

theorem Program.WellFormed.alive_iff (h : p.WellFormed) :
    p.alive (p.survivors K) s = true ↔ p.Live K s := by
  simp only [Program.alive, all_eq_true, mem_inits, Bool.or_eq_true, Bool.not_eq_true',
    decide_eq_true_eq, h.mem_survivors_iff, Program.Live]
  constructor
  · intro hall a hpre hp
    rcases hall a hpre with hn | hu
    · rw [hp] at hn
      cases hn
    · exact hu
  · intro hlive a hpre
    by_cases hp : p.prunable a = true
    · exact Or.inr (hlive a hpre hp)
    · exact Or.inl (by simpa using hp)

theorem Program.Live.mono {t : Spec} (h : p.Live K t) (hpre : s <+: t) : p.Live K s :=
  fun a ha hp => h a (ha.trans hpre) hp

/-- An entity lives when it is used in a live scope. -/
theorem live_concat {n : String} (hscope : p.Live K scope)
    (hused : p.Used K (scope ++ [n])) : p.Live K (scope ++ [n]) := by
  intro a hpre hp
  rcases prefix_concat_iff.mp hpre with rfl | hpre
  · exact hused
  · exact hscope a hpre hp

/-- A live prunable scope is reached. -/
theorem Program.WellFormed.reached_of_live (h : p.WellFormed) {kind : Kind} {refs : Refs}
    (hs : .opens s kind refs ∈ p.items) (hkind : kind.prunable = true) (hlive : p.Live K s) :
    p.Reached K s := by
  have hp : p.prunable s = true := by rw [h.prunable_opens hs, hkind]
  rcases hlive s (prefix_refl s) hp with hr | ⟨w, -, hmark⟩
  · exact hr
  · exact absurd hmark (h.not_touched hs hkind)

variable {i : Item} {r : Refs}

/-- An entity is prunable. -/
theorem Program.WellFormed.prunable_entity (h : p.WellFormed) (hi : i ∈ p.items)
    (he : e ∈ i.entities) : p.prunable (i.scope ++ [e.name]) = true := by
  cases i with
  | decl scope component pointer type entities =>
      have hd := h.declaration hi (s := scope ++ [e.name]) (mem_map.mpr ⟨e, he, rfl⟩)
      exact prunable_iff.mpr ⟨_, hd, rfl⟩
  | _ => simp [Item.entities] at he

/-- The proper prefixes of a declared object that can be pruned are scopes. -/
theorem Program.WellFormed.inner_of_prefix (h : p.WellFormed) {a : Spec} (hn : p.Declares n)
    (hpre : a <+: n) (hne : a ≠ n) (hp : p.prunable a = true) : p.Inner a := by
  have hopen : ∃ kind refs, .opens a kind refs ∈ p.items := by
    obtain ⟨i, hi, hmem⟩ := hn
    cases i with
    | opens spec kind refs =>
        obtain rfl : n = spec := mem_singleton.mp hmem
        exact h.scopes _ _ _ hi a hpre (declares_of_prunable hp)
    | decl scope component pointer type entities =>
        obtain ⟨e, he, rfl⟩ := mem_map.mp hmem
        rcases prefix_concat_iff.mp hpre with heq | hpre
        · exact absurd heq hne
        · exact h.opens_of_prefix hi hpre (declares_of_prunable hp)
    | _ => simp [Item.declared] at hmem
  obtain ⟨kind, refs, hopen⟩ := hopen
  refine ⟨kind, refs, hopen, ?_⟩
  rintro rfl
  rw [h.prunable_opens hopen] at hp
  cases hp

/-- What a live statement names lives as soon as it is used. -/
theorem Program.WellFormed.live_of_used (h : p.WellFormed) (hi : i ∈ p.items)
    (hlive : p.Live K i.scope) (hr : i.Piece r) (hn : n ∈ r.names)
    (hused : p.Used K n) : p.Live K n := by
  have hmem := Item.mem_allRefs.mpr hr
  intro a hpre hp
  by_cases hne : a = n
  · rw [hne]
    exact hused
  · have hinner := h.inner_of_prefix (h.names i hi r hmem n hn).1 hpre hne hp
    exact hlive a (h.local_names i hi r hmem n hn a hpre hne hinner) hp

/-! ## What the walk follows -/

/-- The statement is inside a scope that the walk reaches. -/
def Program.Followed (p : Program) (K : List Spec) (i : Item) : Prop :=
  ∃ s kind refs, .opens s kind refs ∈ p.items ∧ kind ≠ .module ∧ s <+: i.scope ∧ p.Reached K s

/-- The names of a followed statement are reached. -/
theorem Program.WellFormed.reached_of_followed (h : p.WellFormed) (hi : i ∈ p.items)
    (hf : p.Followed K i) (hr : i.Piece r) (hn : n ∈ r.names) :
    p.Reached K n := by
  obtain ⟨s, kind, refs, hopen, hne, hpre, hs⟩ := hf
  refine hs.visit ?_
  rw [h.walk_opens hopen hne]
  refine mem_scopeActions.mpr ⟨i, hi, hpre, Or.inl (mem_itemActions.mpr (Or.inl ⟨r, hr, ?_⟩))⟩
  exact mem_nameActions.mpr ⟨n, hn, Or.inr rfl⟩

/-- The component references of a followed statement are touched. -/
theorem Program.WellFormed.touched_of_followed (h : p.WellFormed) (hi : i ∈ p.items)
    (hf : p.Followed K i) (hr : i.Piece r) (hc : c ∈ r.comps) :
    p.Touched K c := by
  obtain ⟨s, kind, refs, hopen, hne, hpre, hs⟩ := hf
  refine ⟨s, hs, ?_⟩
  rw [h.walk_opens hopen hne]
  refine mem_scopeActions.mpr ⟨i, hi, hpre, Or.inr ⟨c, ?_, rfl⟩⟩
  exact mem_flatMap.mpr ⟨r, Item.mem_allRefs.mpr hr, hc⟩

/-- A used entity of a live scope is reached, if its declaration is not followed. -/
theorem Program.WellFormed.reached_of_not_followed (h : p.WellFormed) (hi : i ∈ p.items)
    (hlive : p.Live K i.scope) (hf : ¬ p.Followed K i) (he : e ∈ i.entities)
    (hused : p.Used K (i.scope ++ [e.name])) : p.Reached K (i.scope ++ [e.name]) := by
  have hnone : ∀ kind refs, .opens i.scope kind refs ∈ p.items → kind.prunable = true → False := by
    intro kind refs hopen hkind
    refine hf ⟨i.scope, kind, refs, hopen, ?_, prefix_refl _, h.reached_of_live hopen hkind hlive⟩
    rintro rfl
    cases hkind
  rcases hused with hr | ⟨w, -, hmark⟩
  · exact hr
  · exfalso
    obtain ⟨j, hj, hcause, -⟩ := h.cause_of_mem_walk hmark
    generalize hs : i.scope ++ [e.name] = s at hcause
    cases hcause with
    | pass _ _ hp =>
        rw [← hs, h.prunable_entity hi he] at hp
        cases hp
    | dummy he' hd =>
        obtain ⟨hscope, -⟩ := append_inj' hs rfl
        obtain ⟨kind, refs, hopen, hkind, -⟩ := kind_of_dummies hd
        rw [← hscope] at hopen
        exact hnone kind refs hopen hkind
    | component hr hc =>
        obtain ⟨scope, pointer, type, entities, hdecl, hmem⟩ :=
          h.comps j hj _ (Item.mem_allRefs.mpr hr) _ hc
        obtain ⟨e', -, heq⟩ := mem_map.mp hmem
        obtain ⟨hscope, -⟩ := append_inj' (heq.trans hs.symm) rfl
        obtain ⟨parent, refs, hopen⟩ := h.components _ _ _ _ hdecl
        rw [hscope] at hopen
        exact hnone _ refs hopen rfl

/-- A piece of a live statement that is left: its own code, or that of a used entity. -/
def Program.LivePiece (p : Program) (K : List Spec) (i : Item) (r : Refs) : Prop :=
  r = i.refs ∨ ∃ e ∈ i.entities, p.Used K (i.scope ++ [e.name]) ∧ r = e.refs

theorem Program.LivePiece.piece (h : p.LivePiece K i r) : i.Piece r := by
  rcases h with rfl | ⟨e, he, -, rfl⟩
  · exact Or.inl rfl
  · exact Or.inr ⟨e, he, rfl⟩

/-- **What the walk looks at is closed**: the names of followed statements, and those
of the shapes and initial values of used entities. -/
theorem Program.WellFormed.live_names (h : p.WellFormed) (hi : i ∈ p.items)
    (hlive : p.Live K i.scope) (hr : p.LivePiece K i r)
    (hf : p.Followed K i ∨ r ≠ i.refs) (hn : n ∈ r.names) : p.Live K n := by
  refine h.live_of_used hi hlive hr.piece hn (Or.inl ?_)
  by_cases hfollow : p.Followed K i
  · exact h.reached_of_followed hi hfollow hr.piece hn
  · rcases hr with rfl | ⟨e, he, hused, rfl⟩
    · rcases hf with hf | hf
      · exact absurd hf hfollow
      · exact absurd rfl hf
    · refine (h.reached_of_not_followed hi hlive hfollow he hused).visit ?_
      cases i with
      | decl scope component pointer type entities =>
          refine (h.mem_walk_decl hi he).mpr (Or.inl ⟨e, he, mem_append_right _ ?_⟩)
          exact mem_nameActions.mpr ⟨n, hn, Or.inr rfl⟩
      | _ => simp [Item.entities] at he

/-- The same for the component references: they are used. -/
theorem Program.WellFormed.used_comps (h : p.WellFormed) (hi : i ∈ p.items)
    (hlive : p.Live K i.scope) (hr : p.LivePiece K i r)
    (hf : p.Followed K i ∨ r ≠ i.refs) (hc : c ∈ r.comps) : p.Used K c := by
  by_cases hfollow : p.Followed K i
  · exact Or.inr (h.touched_of_followed hi hfollow hr.piece hc)
  · rcases hr with rfl | ⟨e, he, hused, rfl⟩
    · rcases hf with hf | hf
      · exact absurd hf hfollow
      · exact absurd rfl hf
    · refine Or.inr ⟨_, h.reached_of_not_followed hi hlive hfollow he hused, ?_⟩
      cases i with
      | decl scope component pointer type entities =>
          exact (h.mem_walk_decl hi he).mpr (Or.inr ⟨e, he, c, hc, rfl⟩)
      | _ => simp [Item.entities] at he

/-! ## The pruned program -/

/-- What is left of the statements of live scopes. -/
theorem Program.WellFormed.mem_pruned (h : p.WellFormed) {j : Item} :
    j ∈ (pruneUnusedObjects p K).items ↔
      ∃ i ∈ p.items, p.Live K i.scope ∧ p.pruneItem (p.survivors K) i = some j := by
  simp only [pruneUnusedObjects, mem_filterMap]
  constructor
  · rintro ⟨i, hi, hj⟩
    refine ⟨i, hi, ?_, hj⟩
    unfold Program.pruneItem at hj
    split_ifs at hj with halive
    exact h.alive_iff.mp halive
  · rintro ⟨i, hi, -, hj⟩
    exact ⟨i, hi, hj⟩

/-- The entities that are left. -/
def Program.keep (p : Program) (K : List Spec) (scope : Spec) (e : Entity) : Bool :=
  decide (scope ++ [e.name] ∈ p.survivors K)

/-- What is left of a statement: an equivalence keeps some pairs, the other
statements keep some entities. -/
theorem pruneItem_eq_some {i j : Item} (hj : p.pruneItem (p.survivors K) i = some j) :
    (j = i.restrict (p.keep K i.scope) ∧ (∀ x ∈ i.lhs, p.unassigned (p.survivors K) x = false) ∧
      ∀ scope pairs, i ≠ .equivalence scope pairs) ∨
      ∃ scope pairs, i = .equivalence scope pairs ∧ j = .equivalence scope
        (pairs.filter (fun q => decide (q.1 ∈ p.survivors K) && decide (q.2 ∈ p.survivors K))) := by
  unfold Program.pruneItem at hj
  split_ifs at hj
  cases i with
  | decl scope component pointer type entities =>
      dsimp only at hj
      split_ifs at hj
      cases hj
      exact Or.inl ⟨rfl, by simp [Item.lhs], by simp⟩
  | equivalence scope pairs =>
      dsimp only at hj
      split_ifs at hj
      cases hj
      exact Or.inr ⟨scope, pairs, rfl, rfl⟩
  | pointerAssign scope lhs ifAction calls refs =>
      dsimp only at hj
      split_ifs at hj with hun
      cases hj
      exact Or.inl ⟨rfl, by simpa [Item.lhs] using hun, by simp⟩
  | opens spec kind refs =>
      cases hj
      exact Or.inl ⟨rfl, by simp [Item.lhs], by simp⟩
  | stmt scope refs =>
      cases hj
      exact Or.inl ⟨rfl, by simp [Item.lhs], by simp⟩

variable (keep : Entity → Bool)

theorem restrict_refs (i : Item) : (i.restrict keep).refs = i.refs := by
  cases i <;> rfl

theorem restrict_entities (i : Item) :
    (i.restrict keep).entities = i.entities.filter keep := by
  cases i <;> rfl

theorem restrict_lhs (i : Item) : (i.restrict keep).lhs = i.lhs := by
  cases i <;> rfl

theorem Program.WellFormed.keep_iff (h : p.WellFormed) :
    p.keep K scope e = true ↔ p.Used K (scope ++ [e.name]) := by
  rw [Program.keep, decide_eq_true_eq, h.mem_survivors_iff]

/-- The statement survives: its scope lives, and it declares something that is used,
or assigns a pointer that lives. -/
def Program.Survives (p : Program) (K : List Spec) (i : Item) : Prop :=
  p.Live K i.scope ∧ (∀ x ∈ i.lhs, p.Live K x) ∧
    match i with
    | .decl scope _ _ _ entities => ∃ e ∈ entities, p.Used K (scope ++ [e.name])
    | .equivalence _ _ => False
    | _ => True

theorem Program.WellFormed.not_unassigned (h : p.WellFormed) {x : Spec} (hx : p.Live K x) :
    p.unassigned (p.survivors K) x = false := by
  unfold Program.unassigned
  by_contra hcon
  simp only [Bool.not_eq_false, Bool.and_eq_true, Bool.not_eq_true',
    decide_eq_false_iff_not] at hcon
  obtain ⟨⟨hptr, hnot⟩, -⟩ := hcon
  refine hnot (h.mem_survivors_iff.mpr (hx x (prefix_refl x) ?_))
  unfold Program.isPointer at hptr
  split at hptr
  · rename_i hd
    exact prunable_iff.mpr ⟨_, hd, rfl⟩
  · cases hptr

/-- A statement that survives is in the pruned program. -/
theorem Program.WellFormed.survives_mem (h : p.WellFormed) (hi : i ∈ p.items)
    (hs : p.Survives K i) :
    i.restrict (p.keep K i.scope) ∈ (pruneUnusedObjects p K).items := by
  obtain ⟨hlive, hlhs, hrest⟩ := hs
  refine h.mem_pruned.mpr ⟨i, hi, hlive, ?_⟩
  unfold Program.pruneItem
  rw [if_pos (h.alive_iff.mpr hlive)]
  cases i with
  | decl scope component pointer type entities =>
      obtain ⟨e, he, hused⟩ := hrest
      have hne : (entities.filter (fun e => decide (scope ++ [e.name] ∈ p.survivors K))).isEmpty =
          false := by
        rw [isEmpty_eq_false_iff]
        refine ne_nil_of_mem (mem_filter.mpr ⟨he, ?_⟩)
        rw [decide_eq_true_eq, h.mem_survivors_iff]
        exact hused
      dsimp only
      rw [hne]
      rfl
  | pointerAssign scope lhs ifAction calls refs =>
      dsimp only
      rw [h.not_unassigned (hlhs lhs rfl)]
      rfl
  | equivalence => exact absurd hrest id
  | opens => rfl
  | stmt => rfl

/-- Objects that live are kept, with the declaration they had, and no others are. -/
theorem Program.WellFormed.keeps_iff (h : p.WellFormed) :
    p.Keeps (pruneUnusedObjects p K) s ↔ p.Declares s ∧ p.Live K s := by
  constructor
  · rintro ⟨i, hi, keep, hj, hs⟩
    have hdecl : s ∈ i.declared := by
      cases i with
      | decl scope component pointer type entities =>
          obtain ⟨e, he, rfl⟩ := mem_map.mp hs
          exact mem_map.mpr ⟨e, (mem_filter.mp he).1, rfl⟩
      | _ => exact hs
    refine ⟨⟨i, hi, hdecl⟩, ?_⟩
    obtain ⟨i', hi', hlive, hpr⟩ := h.mem_pruned.mp hj
    rcases pruneItem_eq_some hpr with ⟨heq, -, -⟩ | ⟨_, _, _, heq⟩
    · rw [heq] at hs
      cases i' with
      | opens spec kind refs =>
          rw [mem_singleton.mp hs]
          exact hlive
      | decl scope component pointer type entities =>
          obtain ⟨e, he, rfl⟩ := mem_map.mp hs
          exact live_concat hlive (h.keep_iff.mp (mem_filter.mp he).2)
      | _ => simp [Item.restrict, Item.declared] at hs
    · rw [heq] at hs
      simp [Item.declared] at hs
  · rintro ⟨⟨i, hi, hs⟩, hlive⟩
    refine ⟨i, hi, p.keep K i.scope, ?_⟩
    cases i with
    | opens spec kind refs =>
        obtain rfl : s = spec := mem_singleton.mp hs
        exact ⟨h.survives_mem hi ⟨hlive, by simp [Item.lhs], trivial⟩, hs⟩
    | decl scope component pointer type entities =>
        obtain ⟨e, he, rfl⟩ := mem_map.mp hs
        have hused := hlive _ (prefix_refl _) (h.prunable_entity hi he)
        refine ⟨h.survives_mem hi ⟨hlive.mono (prefix_append _ _), by simp [Item.lhs], e, he,
          hused⟩, ?_⟩
        exact mem_map.mpr ⟨e, mem_filter.mpr ⟨he, h.keep_iff.mpr hused⟩, rfl⟩
    | _ => simp [Item.declared] at hs

end Pruning
