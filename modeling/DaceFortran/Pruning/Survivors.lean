/-
# What survives

The marks of the walk are exactly the objects that are used from the keepers
(`mem_survivors_iff`): reached through the names the walk follows, or touched by
a component reference or as a dummy argument of a reached scope.
-/
import DaceFortran.Pruning.PruneUnused

open List

namespace Pruning

open Visit

variable {p : Program} {K : List Spec}

/-! ## Declarations -/

variable {i : Item} {s : Spec} {kind : Kind} {refs : Refs} {e : Entity} {act : Action Spec}
  {w : Spec}

/-- A declaration is found by its spec. -/
theorem Program.WellFormed.declaration (h : p.WellFormed) (hi : i ∈ p.items)
    (hs : s ∈ i.declared) : p.declaration s = some i := by
  have hsome : (p.declaration s).isSome := by
    rw [Program.declaration, List.find?_isSome]
    exact ⟨i, hi, by simpa using hs⟩
  obtain ⟨j, hj⟩ := Option.isSome_iff_exists.mp hsome
  have hjmem : j ∈ p.items := mem_of_find?_eq_some hj
  have hjs : s ∈ j.declared := by simpa using List.find?_some hj
  rw [hj]
  by_contra hne
  have hne' : j ≠ i := fun heq => hne (by rw [heq])
  have hdisj := (nodup_flatMap.mp h.unique).2
  have hsymm : Std.Symm (Function.onFun List.Disjoint Item.declared) :=
    ⟨fun _ _ hab => List.Disjoint.symm hab⟩
  exact hdisj.forall hjmem hi hne' hjs hs

theorem declares_of_declaration (h : p.declaration s = some i) :
    i ∈ p.items ∧ s ∈ i.declared :=
  ⟨mem_of_find?_eq_some h, by simpa using List.find?_some h⟩

theorem prunable_iff :
    p.prunable s = true ↔ ∃ i, p.declaration s = some i ∧ i.prunable = true := by
  simp [Program.prunable, Option.any_eq_true]

theorem declares_of_prunable (h : p.prunable s = true) : p.Declares s := by
  obtain ⟨i, hi, -⟩ := prunable_iff.mp h
  exact ⟨i, declares_of_declaration hi⟩

/-- The prunable scopes. -/
theorem Program.WellFormed.prunable_opens (h : p.WellFormed)
    (hs : .opens s kind refs ∈ p.items) : p.prunable s = kind.prunable := by
  have hd := h.declaration hs (s := s) (mem_singleton_self s)
  simp [Program.prunable, hd, Item.prunable]

/-- A scope is not an entity. -/
theorem Program.WellFormed.not_entity_of_opens (h : p.WellFormed)
    (hs : .opens s kind refs ∈ p.items) (hi : i ∈ p.items)
    (he : e ∈ i.entities) : i.scope ++ [e.name] ≠ s := by
  rintro rfl
  cases i with
  | decl scope component pointer type entities =>
      have hmem : scope ++ [e.name] ∈ (Item.decl scope component pointer type entities).declared :=
        mem_map.mpr ⟨e, he, rfl⟩
      have h₁ := h.declaration hi hmem
      have h₂ := h.declaration hs (mem_singleton_self _)
      simp [Item.scope, h₁] at h₂
  | _ => simp [Item.entities] at he

/-- A scope is not a component. -/
theorem Program.WellFormed.not_component_of_opens (h : p.WellFormed)
    (hs : .opens s kind refs ∈ p.items) : ¬ p.Component s := by
  rintro ⟨scope, pointer, type, entities, hi, hmem⟩
  obtain ⟨e, he, rfl⟩ := mem_map.mp hmem
  exact h.not_entity_of_opens hs hi he rfl

/-! ## The actions -/

variable {scope : Spec} {component pointer : Bool} {entities : List Entity}

theorem mem_ancestors :
    act ∈ p.ancestors scope ↔ ∃ a, a <+: scope ∧ p.Declares a ∧
      act = if p.prunable a then .visit a else .mark a := by
  simp only [Program.ancestors, mem_map, mem_filter, mem_reverse, mem_inits,
    decide_eq_true_eq]
  constructor
  · rintro ⟨a, ⟨hpre, hd⟩, rfl⟩
    exact ⟨a, hpre, hd, rfl⟩
  · rintro ⟨a, hpre, hd, rfl⟩
    exact ⟨a, ⟨hpre, hd⟩, rfl⟩

theorem mem_nameActions {names : List Spec} :
    act ∈ p.nameActions scope names ↔ ∃ n ∈ names, act ∈ p.ancestors scope ∨ act = .visit n := by
  simp [Program.nameActions]

/-- A piece of code of a statement: its own, or that of an entity it declares. -/
def Item.Piece (i : Item) (r : Refs) : Prop := r = i.refs ∨ ∃ e ∈ i.entities, r = e.refs

variable {r type : Refs}

theorem Item.mem_allRefs : r ∈ i.allRefs ↔ i.Piece r := by
  simp only [Item.allRefs, mem_cons, mem_map, Item.Piece]
  constructor
  · rintro (h | ⟨e, he, rfl⟩)
    · exact Or.inl h
    · exact Or.inr ⟨e, he, rfl⟩
  · rintro (h | ⟨e, he, rfl⟩)
    · exact Or.inl h
    · exact Or.inr ⟨e, he, rfl⟩

theorem mem_itemActions :
    act ∈ p.itemActions i ↔ (∃ r, i.Piece r ∧ act ∈ p.nameActions i.scope r.names) ∨
      ∃ scope pointer type entities, i = .decl scope false pointer type entities ∧
        ∃ e ∈ entities, e.name ∈ p.dummies scope ∧ act = .mark (scope ++ [e.name]) := by
  cases i with
  | decl scope component pointer type entities =>
      simp only [Program.itemActions, mem_append, mem_flatMap, Program.entityActions,
        Item.Piece, Item.refs, Item.entities, Item.scope]
      constructor
      · rintro (h | ⟨e, he, h | h⟩)
        · exact Or.inl ⟨type, Or.inl rfl, h⟩
        · split_ifs at h with hd
          · simp only [Bool.and_eq_true, Bool.not_eq_true', decide_eq_true_eq] at hd
            obtain ⟨rfl, hd⟩ := hd
            exact Or.inr ⟨_, _, _, _, rfl, e, he, hd, mem_singleton.mp h⟩
          · simp at h
        · exact Or.inl ⟨e.refs, Or.inr ⟨e, he, rfl⟩, h⟩
      · rintro (⟨r, rfl | ⟨e, he, rfl⟩, h⟩ | ⟨_, _, _, _, heq, e, he, hd, rfl⟩)
        · exact Or.inl h
        · exact Or.inr ⟨e, he, Or.inr h⟩
        · simp only [Item.decl.injEq] at heq
          obtain ⟨rfl, rfl, rfl, rfl, rfl⟩ := heq
          exact Or.inr ⟨e, he, Or.inl (by simp [hd])⟩
  | opens spec kind refs => simp [Program.itemActions, Item.Piece, Item.refs, Item.entities]
  | pointerAssign scope lhs ifAction calls refs =>
      simp [Program.itemActions, Item.Piece, Item.refs, Item.entities]
  | equivalence scope pairs => simp [Program.itemActions, Item.Piece, Item.refs, Item.entities]
  | stmt scope refs => simp [Program.itemActions, Item.Piece, Item.refs, Item.entities]

/-- What makes the walk of `w` act at the statement `i`. -/
inductive Program.Cause (p : Program) (w : Spec) (i : Item) : Action Spec → Prop
  /-- A name; the scopes around it are acted on too. -/
  | name {r : Refs} {n : Spec} : i.Piece r → n ∈ r.names →
      (∀ a ∈ p.ancestors i.scope, a ∈ p.walk w) → Cause p w i (.visit n)
  /-- A prunable scope around a name. -/
  | enter {a : Spec} : a <+: i.scope → p.prunable a = true → Cause p w i (.visit a)
  /-- A scope around a name that cannot be pruned. -/
  | pass {a : Spec} : a <+: i.scope → p.Declares a → p.prunable a = false → Cause p w i (.mark a)
  /-- A declared dummy argument. -/
  | dummy {e : Entity} : e ∈ i.entities → e.name ∈ p.dummies i.scope →
      Cause p w i (.mark (i.scope ++ [e.name]))
  /-- A component reference. -/
  | component {r : Refs} {c : Spec} : i.Piece r → c ∈ r.comps → Cause p w i (.mark c)

theorem cause_of_nameActions (hr : i.Piece r)
    (hact : act ∈ p.nameActions i.scope r.names)
    (hall : ∀ b ∈ p.nameActions i.scope r.names, b ∈ p.walk w) : p.Cause w i act := by
  obtain ⟨n, hn, hanc | rfl⟩ := mem_nameActions.mp hact
  · obtain ⟨a, hpre, hd, rfl⟩ := mem_ancestors.mp hanc
    split_ifs with hp
    · exact .enter hpre hp
    · exact .pass hpre hd (by simpa using hp)
  · exact .name hr hn (fun a ha => hall a (mem_nameActions.mpr ⟨n, hn, Or.inl ha⟩))

theorem cause_of_itemActions (hact : act ∈ p.itemActions i)
    (hall : ∀ b ∈ p.itemActions i, b ∈ p.walk w) : p.Cause w i act := by
  rcases mem_itemActions.mp hact with ⟨r, hr, hact⟩ | ⟨_, _, _, _, rfl, e, he, hd, rfl⟩
  · exact cause_of_nameActions hr hact
      (fun b hb => hall b (mem_itemActions.mpr (Or.inl ⟨r, hr, hb⟩)))
  · exact .dummy he hd

theorem cause_of_comps {c : Spec} (hc : c ∈ i.comps) :
    p.Cause w i (.mark c) := by
  obtain ⟨r, hr, hc⟩ := mem_flatMap.mp hc
  exact .component (Item.mem_allRefs.mp hr) hc

/-- The walk of a scope other than a module. -/
theorem Program.WellFormed.walk_opens (h : p.WellFormed)
    (hs : .opens s kind refs ∈ p.items) (hkind : kind ≠ .module) : p.walk s = p.scopeActions s := by
  have hd := h.declaration hs (s := s) (mem_singleton_self s)
  unfold Program.walk
  rw [hd]
  cases kind <;> simp_all

theorem mem_scopeActions :
    act ∈ p.scopeActions s ↔ ∃ i ∈ p.items, s <+: i.scope ∧
      (act ∈ p.itemActions i ∨ ∃ c ∈ i.comps, act = .mark c) := by
  simp only [Program.scopeActions, mem_append, mem_flatMap, mem_map, mem_filter,
    decide_eq_true_eq]
  constructor
  · rintro (⟨i, ⟨hi, hs⟩, h⟩ | ⟨c, ⟨i, ⟨hi, hs⟩, hc⟩, rfl⟩)
    · exact ⟨i, hi, hs, Or.inl h⟩
    · exact ⟨i, hi, hs, Or.inr ⟨c, hc, rfl⟩⟩
  · rintro ⟨i, hi, hs, h | ⟨c, hc, rfl⟩⟩
    · exact Or.inl ⟨i, ⟨hi, hs⟩, h⟩
    · exact Or.inr ⟨c, ⟨i, ⟨hi, hs⟩, hc⟩, rfl⟩

/-- The walk of a declared entity. -/
theorem Program.WellFormed.mem_walk_decl (h : p.WellFormed)
    (hi : .decl scope component pointer type entities ∈ p.items) (he : e ∈ entities) :
    act ∈ p.walk (scope ++ [e.name]) ↔
      (∃ e' ∈ entities, act ∈ p.entityActions scope component e') ∨
        ∃ e' ∈ entities, ∃ c ∈ e'.refs.comps, act = .mark c := by
  have hd := h.declaration hi (s := scope ++ [e.name]) (mem_map.mpr ⟨e, he, rfl⟩)
  unfold Program.walk
  rw [hd]
  simp only [mem_append, mem_flatMap, mem_map]
  constructor
  · rintro (h | ⟨c, ⟨e', he', hc⟩, rfl⟩)
    · exact Or.inl h
    · exact Or.inr ⟨e', he', c, hc, rfl⟩
  · rintro (h | ⟨e', he', c, hc, rfl⟩)
    · exact Or.inl h
    · exact Or.inr ⟨c, ⟨e', he', hc⟩, rfl⟩

theorem cause_of_entityActions {w scope : Spec}
    (he : e ∈ entities)
    (hact : act ∈ p.entityActions scope component e)
    (hall : ∀ b ∈ p.entityActions scope component e, b ∈ p.walk w) :
    p.Cause w (.decl scope component pointer type entities) act := by
  rcases mem_append.mp hact with h | h
  · split_ifs at h with hd
    · rw [mem_singleton.mp h]
      simp only [Bool.and_eq_true, decide_eq_true_eq] at hd
      exact .dummy he hd.2
    · simp at h
  · exact cause_of_nameActions (i := .decl scope component pointer type entities)
      (Or.inr ⟨e, he, rfl⟩) h
      (fun b hb => hall b (mem_append_right _ hb))

/-- **Every action of a walk has a cause**: at a statement inside the scope that is
walked, or at the declaration of the entity that is. -/
theorem Program.WellFormed.cause_of_mem_walk (h : p.WellFormed)
    (hact : act ∈ p.walk w) : ∃ i ∈ p.items, p.Cause w i act ∧
      ((∃ kind refs, .opens w kind refs ∈ p.items ∧ kind ≠ .module ∧ w <+: i.scope) ∨
        ∃ e ∈ i.entities, w = i.scope ++ [e.name]) := by
  cases hd : p.declaration w with
  | none => simp [Program.walk, hd] at hact
  | some i =>
      obtain ⟨hi, hw⟩ := declares_of_declaration hd
      cases i with
      | opens spec kind refs =>
          obtain rfl : w = spec := mem_singleton.mp hw
          by_cases hkind : kind = .module
          · subst hkind
            simp [Program.walk, hd] at hact
          · have hwalk := h.walk_opens hi hkind
            rw [hwalk] at hact
            obtain ⟨i, hmem, hpre, hact | ⟨c, hc, rfl⟩⟩ := mem_scopeActions.mp hact
            · refine ⟨i, hmem, cause_of_itemActions hact ?_, Or.inl ⟨kind, refs, hi, hkind, hpre⟩⟩
              intro b hb
              rw [hwalk]
              exact mem_scopeActions.mpr ⟨i, hmem, hpre, Or.inl hb⟩
            · exact ⟨i, hmem, cause_of_comps hc, Or.inl ⟨kind, refs, hi, hkind, hpre⟩⟩
      | decl scope component pointer type entities =>
          obtain ⟨e, he, rfl⟩ := mem_map.mp hw
          refine ⟨.decl scope component pointer type entities, hi, ?_, Or.inr ⟨e, he, rfl⟩⟩
          rcases (h.mem_walk_decl hi he).mp hact with ⟨e', he', hact⟩ | ⟨e', he', c, hc, rfl⟩
          · exact cause_of_entityActions he' hact
              (fun b hb => (h.mem_walk_decl hi he).mpr (Or.inl ⟨e', he', hb⟩))
          · exact .component (Or.inr ⟨e', he', rfl⟩) hc
      | _ => simp [Item.declared] at hw

theorem declares_of_component (h : p.Component s) : p.Declares s := by
  obtain ⟨_, _, _, _, hi, hs⟩ := h
  exact ⟨_, hi, hs⟩

theorem declares_of_entity (hi : i ∈ p.items) (he : e ∈ i.entities) :
    p.Declares (i.scope ++ [e.name]) := by
  refine ⟨i, hi, ?_⟩
  cases i with
  | decl => exact mem_map.mpr ⟨e, he, rfl⟩
  | _ => simp [Item.entities] at he

theorem Program.WellFormed.target_declared (h : p.WellFormed)
    (hact : act ∈ p.walk w) : p.Declares act.target := by
  obtain ⟨i, hi, hcause, -⟩ := h.cause_of_mem_walk hact
  cases hcause with
  | name hr hn _ => exact (h.names i hi _ (Item.mem_allRefs.mpr hr) _ hn).1
  | enter _ hp => exact declares_of_prunable hp
  | pass _ hd _ => exact hd
  | dummy he _ => exact declares_of_entity hi he
  | component hr hc => exact declares_of_component (h.comps i hi _ (Item.mem_allRefs.mpr hr) _ hc)

/-- The scopes around a statement are opened. -/
theorem Program.WellFormed.opens_of_prefix (h : p.WellFormed) (hi : i ∈ p.items)
    {a : Spec} (hpre : a <+: i.scope) (hd : p.Declares a) :
    ∃ kind refs, .opens a kind refs ∈ p.items := by
  obtain ⟨kind, refs, hopen⟩ := h.opened i hi
  exact h.scopes _ _ _ hopen a hpre hd

/-! ## The survivors -/

/-- The walk reaches the object through names. -/
def Program.Reached (p : Program) (K : List Spec) (s : Spec) : Prop := Visit.Reached p.walk K s

/-- The walk marks the object without walking it. -/
def Program.Touched (p : Program) (K : List Spec) (s : Spec) : Prop :=
  ∃ w, p.Reached K w ∧ .mark s ∈ p.walk w

/-- The object is used from the keepers. -/
def Program.Used (p : Program) (K : List Spec) (s : Spec) : Prop := p.Reached K s ∨ p.Touched K s

/-- A prunable scope is never only touched. -/
theorem Program.WellFormed.not_touched (h : p.WellFormed)
    (hs : .opens s kind refs ∈ p.items) (hkind : kind.prunable = true) :
    .mark s ∉ p.walk w := by
  intro hmark
  obtain ⟨i, hi, hcause, -⟩ := h.cause_of_mem_walk hmark
  cases hcause with
  | pass _ _ hp =>
      rw [h.prunable_opens hs, hkind] at hp
      cases hp
  | dummy he _ => exact h.not_entity_of_opens hs hi he rfl
  | component hr hc =>
      exact h.not_component_of_opens hs (h.comps i hi _ (Item.mem_allRefs.mpr hr) _ hc)

/-- The actions of an entity list are among those of the scopes around it. -/
theorem Program.WellFormed.walk_subset (h : p.WellFormed) (hi : i ∈ p.items)
    (he : e ∈ i.entities) (hs : .opens s kind refs ∈ p.items)
    (hkind : kind ≠ .module) (hpre : s <+: i.scope)
    (hact : act ∈ p.walk (i.scope ++ [e.name])) : act ∈ p.walk s := by
  rw [h.walk_opens hs hkind]
  cases i with
  | decl scope component pointer type entities =>
      refine mem_scopeActions.mpr ⟨_, hi, hpre, ?_⟩
      rcases (h.mem_walk_decl hi he).mp hact with ⟨e', he', hact⟩ | ⟨e', he', c, hc, rfl⟩
      · refine Or.inl (mem_append_right _ (mem_flatMap.mpr ⟨e', he', hact⟩))
      · refine Or.inr ⟨c, mem_flatMap.mpr ⟨e'.refs, ?_, hc⟩, rfl⟩
        exact Item.mem_allRefs.mpr (Or.inr ⟨e', he', rfl⟩)
  | _ => simp [Item.entities] at he

theorem kind_of_dummies {d : String} (h : d ∈ p.dummies scope) :
    ∃ kind refs, .opens scope kind refs ∈ p.items ∧ kind.prunable = true ∧ kind ≠ .module := by
  unfold Program.dummies at h
  split at h
  · rename_i spec kind refs hd
    obtain ⟨hi, hs⟩ := declares_of_declaration hd
    obtain rfl : scope = spec := mem_singleton.mp hs
    refine ⟨kind, refs, hi, ?_⟩
    cases kind <;> simp_all [Kind.dummies, Kind.prunable]
  · simp at h

/-- **Nothing is lost at a mark.**  When all that was walked is closed, the walk of a
visited object that was marked before adds nothing. -/
theorem Program.WellFormed.closed_of_visit (h : p.WellFormed) {S W : List Spec}
    (hrun : ∀ w ∈ K ++ W, ∀ act ∈ p.walk w, act.target ∈ S)
    (hwalked : ∀ a ∈ S, a ∈ K ++ W ∨ ∃ w ∈ K ++ W, .mark a ∈ p.walk w)
    {w₀ w : Spec} (hw₀ : ∀ act ∈ p.walk w₀, act.target ∈ S) (hvisit : .visit w ∈ p.walk w₀) :
    ∀ act ∈ p.walk w, act.target ∈ S := by
  rcases hwalked w (hw₀ _ hvisit) with hw | ⟨w', hw', hmark⟩
  · exact hrun w hw
  · obtain ⟨i, hi, hmarked, hfrom⟩ := h.cause_of_mem_walk hmark
    obtain ⟨j, hj, hvisited, -⟩ := h.cause_of_mem_walk hvisit
    cases hmarked with
    | pass hpre hdecl hp =>
        -- a scope that cannot be pruned: a module, or an interface around the statement
        obtain ⟨kind, refs, hopen⟩ := h.opens_of_prefix hi hpre hdecl
        rw [h.prunable_opens hopen] at hp
        cases kind with
        | module =>
            have hd := h.declaration hopen (s := w) (mem_singleton_self w)
            simp [Program.walk, hd]
        | interface =>
            obtain ⟨hsame, hnone⟩ := h.interfaces w refs hopen i hi hpre
            rcases hfrom with ⟨kind', refs', hopen', hne, hpre'⟩ | ⟨e, he, -⟩
            · -- the walk of a scope around it has done the same
              rw [hsame] at hpre'
              intro act hact
              rw [h.walk_opens hopen (by simp)] at hact
              obtain ⟨k, hk, hin, hact⟩ := mem_scopeActions.mp hact
              refine hrun w' hw' act ?_
              rw [h.walk_opens hopen' hne]
              exact mem_scopeActions.mpr ⟨k, hk, hpre'.trans hin, hact⟩
            · rw [hnone] at he
              simp at he
        | _ => simp [Kind.prunable] at hp
    | @dummy e he hd =>
        -- a dummy argument: its subprogram is visited with it, and has been walked
        obtain ⟨kind, refs, hopen, hprun, hne⟩ := kind_of_dummies hd
        cases hvisited with
        | name hr hn hanc =>
            have hin : i.scope <+: j.scope :=
              h.local_names j hj _ (Item.mem_allRefs.mpr hr) _ hn i.scope (prefix_append _ _)
                (by simp) ⟨kind, refs, hopen, hne⟩
            have hsub : .visit i.scope ∈ p.walk w₀ := by
              refine hanc _ (mem_ancestors.mpr ⟨i.scope, hin, ⟨_, hopen, mem_singleton_self _⟩, ?_⟩)
              rw [h.prunable_opens hopen, if_pos hprun]
            have hclosed : ∀ act ∈ p.walk i.scope, act.target ∈ S := by
              rcases hwalked _ (hw₀ _ hsub) with hw | ⟨w'', -, hmark'⟩
              · exact hrun _ hw
              · exact absurd hmark' (h.not_touched hopen hprun)
            exact fun act hact => hclosed act
              (h.walk_subset hi he hopen hne (prefix_refl _) hact)
        | enter hpre hp =>
            obtain ⟨kind', refs', hopen'⟩ := h.opens_of_prefix hj hpre (declares_of_prunable hp)
            exact absurd rfl (h.not_entity_of_opens hopen' hi he)
    | component hr hc =>
        -- names and scopes are no components
        have hcomp := h.comps i hi _ (Item.mem_allRefs.mpr hr) _ hc
        cases hvisited with
        | name hr hn _ => exact absurd hcomp (h.names j hj _ (Item.mem_allRefs.mpr hr) _ hn).2
        | enter hpre hp =>
            obtain ⟨kind', refs', hopen'⟩ := h.opens_of_prefix hj hpre (declares_of_prunable hp)
            exact absurd hcomp (h.not_component_of_opens hopen')

/-- **The survivors are the objects used from the keepers.** -/
theorem Program.WellFormed.mem_survivors_iff (h : p.WellFormed) :
    s ∈ p.survivors K ↔ p.Used K s := by
  have hU : ∀ w act, act ∈ p.walk w → act.target ∈ p.objects.toFinset := by
    intro w act hact
    obtain ⟨i, hi, hs⟩ := h.target_declared hact
    rw [mem_toFinset]
    exact mem_flatMap.mpr ⟨i, hi, hs⟩
  obtain ⟨W, hrun⟩ : ∃ W, Run p.walk (K.flatMap p.walk) K (p.survivors K) W := by
    apply run_visit (U := p.objects.toFinset) (fun a _ => hU a)
    · intro act hact
      obtain ⟨k, -, hact⟩ := mem_flatMap.mp hact
      exact hU k act hact
    · intro V hV _
      exact Nat.lt_succ_of_le ((Finset.card_le_card hV).trans (toFinset_card_le _))
  have hclosed : ∀ w ∈ K ++ W, ∀ act ∈ p.walk w, act.target ∈ p.survivors K := by
    intro w hw act hact
    rcases mem_append.mp hw with hw | hw
    · exact hrun.target_mem act (mem_flatMap.mpr ⟨w, hw, hact⟩)
    · exact hrun.closed w hw act hact
  have hwalked : ∀ a ∈ p.survivors K, a ∈ K ++ W ∨ ∃ w ∈ K ++ W, .mark a ∈ p.walk w := by
    intro a ha
    rcases hrun.walked_or_marked a ha with ha | ha | ha | ⟨w, hw, ha⟩
    · exact Or.inl (mem_append_left _ ha)
    · exact Or.inl (mem_append_right _ ha)
    · obtain ⟨k, hk, ha⟩ := mem_flatMap.mp ha
      exact Or.inr ⟨k, mem_append_left _ hk, ha⟩
    · exact Or.inr ⟨w, mem_append_right _ hw, ha⟩
  have hreached : ∀ w ∈ K ++ W, p.Reached K w := by
    intro w hw
    rcases mem_append.mp hw with hw | hw
    · exact .keeper hw
    · refine hrun.walked_reached (fun a ha => ?_) w hw
      obtain ⟨k, hk, ha⟩ := mem_flatMap.mp ha
      exact (Visit.Reached.keeper hk).visit ha
  constructor
  · intro hs
    rcases hwalked s hs with hs | ⟨w, hw, hmark⟩
    · exact Or.inl (hreached s hs)
    · exact Or.inr ⟨w, hreached w hw, hmark⟩
  · -- all that is reached is marked, with all that its walk meets
    have hall : ∀ w, p.Reached K w →
        w ∈ p.survivors K ∧ ∀ act ∈ p.walk w, act.target ∈ p.survivors K := by
      intro w hw
      induction hw with
      | keeper hk => exact ⟨hrun.subset hk, hclosed _ (mem_append_left _ hk)⟩
      | visit _ hvisit ih => exact ⟨ih.2 _ hvisit, h.closed_of_visit hclosed hwalked ih.2 hvisit⟩
    rintro (hs | ⟨w, hw, hmark⟩)
    · exact (hall s hs).1
    · exact (hall w hw).2 _ hmark

end Pruning
