/-
# The surgery on declarations

What becomes of one entity `x` of a declaration that is split: either it is the
constant, or the declaration of the others, appended to the specification part,
is the only one it has (`Moved`).  Provided no later statement and no constant of
the same declaration refers to it, that is still before its uses.
-/
import DaceFortran.GlobalConstants.MakeGlobalConstants
import Mathlib.Data.List.Nodup

open Procedures List

namespace GlobalConstants

variable {L : Type} {m : Module} {x : String}

/-! ## Declared once, before its uses -/

variable {items : List SpecItem} {pre post : List Event} {z : String}

/-- The one declaration splits the events: no use comes before it. -/
theorem DeclaredBeforeUses.split (h : DeclaredBeforeUses items x)
    (he : items.flatMap SpecItem.events = pre ++ .declare x :: post) :
    .use x ∉ pre ∧ .declare x ∉ pre ∧ .declare x ∉ post := by
  have hcount := h.once
  rw [he, count_append, count_cons_self] at hcount
  have hpre : .declare x ∉ pre := count_eq_zero.mp (by omega)
  have hpost : .declare x ∉ post := count_eq_zero.mp (by omega)
  refine ⟨?_, hpre, hpost⟩
  intro huse
  obtain ⟨p, q, rfl⟩ := append_of_mem huse
  have hbefore := h.before p (q ++ .declare x :: post) (by rw [he]; simp)
  exact hpre (mem_append_left _ hbefore)

/-- And conversely. -/
theorem declaredBeforeUses_of_split
    (he : items.flatMap SpecItem.events = pre ++ .declare x :: post) (huse : .use x ∉ pre)
    (hpre : .declare x ∉ pre) (hpost : .declare x ∉ post) : DeclaredBeforeUses items x := by
  constructor
  · rw [he, count_append, count_cons_self, count_eq_zero.mpr hpre,
      count_eq_zero.mpr hpost]
  · intro p q hpq
    rw [he] at hpq
    rcases append_eq_append_iff.mp hpq with ⟨r, rfl, hr⟩ | ⟨r, rfl, hr⟩
    · rcases r with _ | ⟨c, r⟩
      · cases hr
      · obtain ⟨rfl, -⟩ := List.cons.inj hr
        exact mem_append_right _ (mem_cons_self ..)
    · rcases r with _ | ⟨c, r⟩
      · cases hr
      · obtain ⟨rfl, -⟩ := List.cons.inj hr
        exact absurd (mem_append_right _ (mem_cons_self ..)) huse

/-- A statement that neither declares nor uses the name. -/
def Silent (x : String) (item : SpecItem) : Prop :=
  .use x ∉ item.events ∧ .declare x ∉ item.events

variable {d d' : Declaration} {remaining : List String}

/-- A declaration of fewer entities meets no more. -/
theorem events_subset (hu : d'.uses = d.uses)
    (he : d'.entities ⊆ d.entities) : (SpecItem.decl d').events ⊆ (SpecItem.decl d).events := by
  intro ev hev
  rcases mem_append.mp hev with hev | hev
  · rw [hu] at hev
    exact mem_append_left _ hev
  · obtain ⟨e, hmem, hev⟩ := mem_flatMap.mp hev
    exact mem_append_right _ (mem_flatMap.mpr ⟨e, he hmem, hev⟩)

theorem Silent.of_subset {item item' : SpecItem} (h : Silent x item)
    (hs : item'.events ⊆ item.events) : Silent x item' :=
  ⟨fun hu => h.1 (hs hu), fun hd => h.2 (hs hd)⟩

variable {d : Declaration} {e : Entity} {i : ℕ} {part : Part}

/-- Silent statements around a declaration. -/
theorem declaredBeforeUses_around {front back : List SpecItem}
    {before after : List Entity} (hfront : ∀ item ∈ front, Silent e.name item)
    (hback : ∀ item ∈ back, Silent e.name item) (hd : d.entities = before ++ e :: after)
    (huse : e.name ∉ d.uses) (hown : ∀ e' ∈ before ++ [e], e.name ∉ e'.uses)
    (hother : ∀ e' ∈ before ++ after, e'.name ≠ e.name) :
    DeclaredBeforeUses (front ++ .decl d :: back) e.name := by
  have hevents : (front ++ .decl d :: back).flatMap SpecItem.events =
      (front.flatMap SpecItem.events ++ (d.uses.map .use ++
        (before.flatMap Entity.events ++ e.uses.map .use))) ++ .declare e.name ::
        (after.flatMap Entity.events ++ back.flatMap SpecItem.events) := by
    simp [SpecItem.events, hd, Entity.events]
  have hne : ∀ e' ∈ before ++ after, .declare e.name ∉ e'.events := by
    intro e' he' hmem
    simp only [Entity.events, mem_append, mem_map, mem_singleton] at hmem
    rcases hmem with ⟨_, -, hmem⟩ | hmem
    · cases hmem
    · exact hother e' he' (Event.declare.inj hmem).symm
  have huses : ∀ {l : List String}, (.declare e.name : Event) ∉ l.map .use := by
    intro l hmem
    obtain ⟨_, -, hmem⟩ := mem_map.mp hmem
    cases hmem
  refine declaredBeforeUses_of_split hevents ?_ ?_ ?_
  · simp only [mem_append, mem_flatMap, mem_map, not_or]
    refine ⟨?_, ?_, ?_, ?_⟩
    · rintro ⟨item, hitem, hmem⟩
      exact (hfront item hitem).1 hmem
    · rintro ⟨y, hy, heq⟩
      rw [Event.use.inj heq] at hy
      exact huse hy
    · rintro ⟨e', he', hmem⟩
      simp only [Entity.events, mem_append, mem_map, mem_singleton] at hmem
      rcases hmem with ⟨y, hy, heq⟩ | hmem
      · rw [Event.use.inj heq] at hy
        exact hown e' (mem_append_left _ he') hy
      · cases hmem
    · rintro ⟨y, hy, heq⟩
      rw [Event.use.inj heq] at hy
      exact hown e (mem_append_right _ (mem_singleton_self _)) hy
  · simp only [mem_append, mem_flatMap, not_or]
    refine ⟨?_, huses, ?_, huses⟩
    · rintro ⟨item, hitem, hmem⟩
      exact (hfront item hitem).2 hmem
    · rintro ⟨e', he', hmem⟩
      exact hne e' (mem_append_left _ he') hmem
  · simp only [mem_append, mem_flatMap, not_or]
    refine ⟨?_, ?_⟩
    · rintro ⟨e', he', hmem⟩
      exact hne e' (mem_append_right _ he') hmem
    · rintro ⟨item, hitem, hmem⟩
      exact (hback item hitem).2 hmem

/-! ## Modules -/

/-- A valid specification part: no name is declared twice, each is declared before its uses. -/
structure Module.Valid (m : Module) : Prop where
  names_nodup : m.names.Nodup
  before : ∀ x ∈ m.names, DeclaredBeforeUses m.items x

/-- An entity that the pass fixes. -/
def Fixed (m : Module) (order : List Spec) (e : Entity) : Prop :=
  e.init ∧ [m.name, e.name] ∈ order

/-- **The declarations that are split safely**: where two entities are fixed there is no third
one, and no later statement and no fixed entity of the declaration refers to the others. -/
structure Splittable (m : Module) (order : List Spec) (i : ℕ) (d : Declaration) : Prop where
  pair : ∀ e ∈ d.entities, ∀ e' ∈ d.entities, Fixed m order e → Fixed m order e' → e ≠ e' →
    d.entities.length ≤ 2
  later : ∀ e ∈ d.entities, ∀ e' ∈ d.entities, Fixed m order e → e ≠ e' →
    ∀ j item, i < j → m.items[j]? = some item → .use e'.name ∉ item.events
  own : ∀ e ∈ d.entities, ∀ e' ∈ d.entities, Fixed m order e → e ≠ e' → e'.name ∉ e.uses

/-- Where a declaration stands. -/
structure DeclaredAt (m : Module) (i : ℕ) (d : Declaration) (e : Entity) : Prop where
  item : m.items[i]? = some (.decl d)
  mem : e ∈ d.entities

theorem DeclaredAt.item_eq (h : DeclaredAt m i d e) :
    m.item i = .decl d := by
  rw [Module.item, h.item]
  rfl

/-- Entities of different statements have different names, and those of one too. -/
theorem DeclaredAt.unique (hm : m.names.Nodup) {i j : ℕ} {e e' : Entity}
    (h : DeclaredAt m i d e) (h' : DeclaredAt m j d' e') (hn : e.name = e'.name) :
    i = j ∧ d = d' ∧ e = e' := by
  have hpair := nodup_flatMap.mp hm
  have hij : i = j := by
    by_contra hne
    have hdisj : ∀ {i j : ℕ} {d d' : Declaration} {e e' : Entity}, DeclaredAt m i d e →
        DeclaredAt m j d' e' → e.name = e'.name → ¬i < j := by
      intro i j d d' e e' h h' hn hlt
      obtain ⟨hi, hi'⟩ := List.getElem?_eq_some_iff.mp h.item
      obtain ⟨hj, hj'⟩ := List.getElem?_eq_some_iff.mp h'.item
      have hd := pairwise_iff_getElem.mp hpair.2 i j hi hj hlt
      rw [hi', hj'] at hd
      exact hd (mem_map.mpr ⟨e, h.mem, rfl⟩) (mem_map.mpr ⟨e', h'.mem, hn.symm⟩)
    rcases Nat.lt_or_gt_of_ne hne with hlt | hlt
    · exact hdisj h h' hn hlt
    · exact hdisj h' h hn.symm hlt
  subst hij
  have hd : d = d' := by
    have := h.item.symm.trans h'.item
    exact SpecItem.decl.inj (Option.some.inj this)
  subst hd
  refine ⟨rfl, rfl, ?_⟩
  exact inj_on_of_nodup_map (hpair.1 _ (mem_of_getElem? h.item)) h.mem h'.mem hn

/-- The position of a declared name. -/
theorem DeclaredAt.position_eq (hm : m.names.Nodup)
    (h : DeclaredAt m i d e) : m.position e.name = some i := by
  unfold Module.position
  obtain ⟨hi, hi'⟩ := List.getElem?_eq_some_iff.mp h.item
  rw [List.findIdx?_eq_some_iff_getElem]
  refine ⟨hi, ?_, ?_⟩
  · rw [hi']
    simpa using ⟨e, h.mem, rfl⟩
  · intro j hji
    simp only [decide_eq_true_eq]
    intro hmem
    obtain ⟨e', he', hn⟩ := mem_map.mp hmem
    rcases hitem : m.items[j] with d' | u
    · rw [hitem] at he'
      have h' : DeclaredAt m j d' e' := ⟨List.getElem?_eq_some_iff.mpr ⟨_, hitem⟩, he'⟩
      have hij := (h'.unique hm h hn).1
      omega
    · rw [hitem] at he'
      cases he'

/-- A round of the last loop on a declared entity. -/
theorem DeclaredAt.fix_eq (hm : m.names.Nodup)
    (h : DeclaredAt m i d e) (part : Part) :
    m.fix part e.name = if e.init then part.fixEntity i d e else part := by
  have hfind : d.entities.find? (fun e' => e'.name = e.name) = some e := by
    rcases hf : d.entities.find? (fun e' => e'.name = e.name) with _ | e'
    · have := List.find?_eq_none.mp hf e h.mem
      simp at this
    · have hn : e'.name = e.name := by simpa using List.find?_some hf
      have h' : DeclaredAt m i d e' := ⟨h.item, mem_of_find?_eq_some hf⟩
      obtain rfl := (h'.unique hm h hn).2.2
      exact hf
  unfold Module.fix
  rw [h.position_eq hm]
  simp only [h.item_eq, hfind]

/-! ## The lists of the declarations -/

/-- The lists shrink by entities that are done. -/
structure Lists (m : Module) (part : Part) (remaining : List String) : Prop where
  subset : ∀ j, part.lists j ⊆ (m.item j).entities
  kept : ∀ j d e, DeclaredAt m j d e → e.name ∈ remaining → e ∈ part.lists j

/-- A round is for an initialized entity, or it does nothing. -/
theorem fix_eq_or (hm : m.names.Nodup) (part : Part) (z : String) :
    m.fix part z = part ∨ ∃ j d e, DeclaredAt m j d e ∧ e.name = z ∧ e.init = true ∧
      m.fix part z = part.fixEntity j d e := by
  rcases hp : m.position z with _ | j
  · left
    unfold Module.fix
    rw [hp]
  · rcases hj : m.item j with d | u
    · rcases hf : d.entities.find? (fun e => e.name = z) with _ | e
      · left
        unfold Module.fix
        rw [hp]
        simp only [hj, hf]
      · have hz : e.name = z := by simpa using List.find?_some hf
        have hat : DeclaredAt m j d e := by
          refine ⟨?_, mem_of_find?_eq_some hf⟩
          obtain ⟨hlt, -, -⟩ := List.findIdx?_eq_some_iff_getElem.mp hp
          rw [Module.item, List.getElem?_eq_getElem hlt] at hj
          rw [List.getElem?_eq_getElem hlt]
          exact congrArg some hj
        rw [← hz, hat.fix_eq hm]
        by_cases hi : e.init = true
        · right
          exact ⟨j, d, e, hat, rfl, hi, by rw [if_pos hi]⟩
        · left
          rw [if_neg hi]
    · left
      unfold Module.fix
      rw [hp]
      simp only [hj]

/-- The same, with what it means that it does nothing. -/
theorem fix_cases (hm : m.names.Nodup) (part : Part) (z : String) :
    (m.fix part z = part ∧ ∀ j d e, DeclaredAt m j d e → e.name = z → e.init = false) ∨
      ∃ j d e, DeclaredAt m j d e ∧ e.name = z ∧ e.init = true ∧
        m.fix part z = part.fixEntity j d e := by
  by_cases h : ∃ j d e, DeclaredAt m j d e ∧ e.name = z ∧ e.init = true
  · obtain ⟨j, d, e, he, hez, hi⟩ := h
    refine Or.inr ⟨j, d, e, he, hez, hi, ?_⟩
    rw [← hez, he.fix_eq hm, if_pos hi]
  · refine Or.inl ⟨?_, ?_⟩
    · rcases fix_eq_or hm part z with hf | ⟨j, d, e, he, hez, hi, -⟩
      · exact hf
      · exact absurd ⟨j, d, e, he, hez, hi⟩ h
    · intro j d e he hez
      by_contra hi
      exact h ⟨j, d, e, he, hez, by simpa using hi⟩

/-- One round keeps the lists. -/
theorem Lists.fixEntity
    (h : Lists m part (z :: remaining)) (hz : z ∉ remaining)
    (he : DeclaredAt m i d e) (hez : e.name = z) :
    Lists m (part.fixEntity i d e) remaining := by
  unfold Part.fixEntity
  by_cases hlen : (part.lists i).length = 1
  · simp only [hlen, if_true]
    exact ⟨h.subset, fun j d' e' h' hr => h.kept j d' e' h' (mem_cons_of_mem _ hr)⟩
  · simp only [hlen, if_false]
    constructor
    · intro j
      by_cases hj : j = i
      · subst hj
        simp only [if_true]
        exact fun e' he' => h.subset j (mem_of_mem_filter he')
      · simp only [hj, if_false]
        exact h.subset j
    · intro j d' e' h' hr
      have hk := h.kept j d' e' h' (mem_cons_of_mem _ hr)
      by_cases hj : j = i
      · subst hj
        simp only [if_true]
        refine mem_filter.mpr ⟨hk, ?_⟩
        simp only [ne_eq, decide_not, Bool.not_eq_true', decide_eq_false_iff_not]
        rintro rfl
        exact hz (hez ▸ hr)
      · simp only [hj, if_false]
        exact hk

/-- One round, whatever it is for. -/
theorem Lists.fix (hm : m.names.Nodup)
    (h : Lists m part (z :: remaining)) (hz : z ∉ remaining) :
    Lists m (m.fix part z) remaining := by
  rcases fix_cases hm part z with ⟨hf, -⟩ | ⟨j, d, e, he, hez, -, hf⟩
  · rw [hf]
    exact ⟨h.subset, fun j d' e' h' hr => h.kept j d' e' h' (mem_cons_of_mem _ hr)⟩
  · rw [hf]
    exact h.fixEntity hz he hez

/-- Before the first round. -/
theorem lists_part (m : Module) (remaining : List String) : Lists m m.part remaining := by
  constructor
  · exact fun j => List.Subset.refl _
  · intro j d e h _
    show e ∈ (m.item j).entities
    rw [h.item_eq]
    exact h.mem

/-! ## New declarations -/

/-- A new declaration is that of constants the pass fixes, or one with the attributes of the
declaration it comes from. -/
def Justified (m : Module) (order : List Spec) (d' : Declaration) : Prop :=
  (∀ e ∈ d'.entities, [m.name, e.name] ∈ order) ∨
    ∃ (j : ℕ) (d : Declaration), m.items[j]? = some (.decl d) ∧ d'.attrs = d.attrs ∧
      d'.entities ⊆ d.entities

/-- What a round adds to the nodes. -/
theorem mem_fixEntity {n : Node}
    (h : n ∈ (part.fixEntity i d e).nodes) :
    n ∈ part.nodes ∨
      (part.lists i).length = 1 ∧ n = .fresh (d.constant (part.lists i)) ∨
      (part.lists i).length ≠ 1 ∧ (n = .fresh (d.constant [e]) ∨
        n = .fresh { d with entities := (part.lists i).filter (· ≠ e) }) := by
  have hreplace : ∀ {d' : Declaration}, n ∈ replaceNode i d' part.nodes →
      n ∈ part.nodes ∨ n = .fresh d' := by
    intro d' hn
    obtain ⟨n', hn', rfl⟩ := mem_map.mp hn
    split_ifs
    · exact Or.inr rfl
    · exact Or.inl hn'
  unfold Part.fixEntity at h
  by_cases hlen : (part.lists i).length = 1
  · simp only [hlen, if_true] at h
    rcases hreplace h with h | h
    · exact Or.inl h
    · exact Or.inr (Or.inl ⟨hlen, h⟩)
  · simp only [hlen, if_false] at h
    rcases mem_append.mp h with h | h
    · rcases hreplace h with h | h
      · exact Or.inl h
      · exact Or.inr (Or.inr ⟨hlen, Or.inl h⟩)
    · exact Or.inr (Or.inr ⟨hlen, Or.inr (mem_singleton.mp h)⟩)

/-- Every new declaration is justified. -/
theorem fix_justified (hm : m.names.Nodup) {order : List Spec}
    (hl : Lists m part (z :: remaining))
    (hz : [m.name, z] ∈ order) (h : ∀ d', Node.fresh d' ∈ part.nodes → Justified m order d') :
    ∀ d', Node.fresh d' ∈ (m.fix part z).nodes → Justified m order d' := by
  intro d' hd'
  rcases fix_cases hm part z with ⟨hf, -⟩ | ⟨j, d, e, he, hez, -, hf⟩
  · rw [hf] at hd'
    exact h d' hd'
  · rw [hf] at hd'
    have hmem : e ∈ part.lists j := hl.kept j d e he (by rw [hez]; exact mem_cons_self ..)
    rcases mem_fixEntity hd' with hn | ⟨hlen, hn⟩ | ⟨-, hn | hn⟩
    · exact h d' hn
    · refine Or.inl ?_
      obtain ⟨e₁, hone⟩ := length_eq_one_iff.mp hlen
      rw [hone, mem_singleton] at hmem
      subst hmem
      obtain rfl := Node.fresh.inj hn
      intro e' he'
      rw [Declaration.constant, hone, mem_singleton] at he'
      rw [he', hez]
      exact hz
    · refine Or.inl ?_
      obtain rfl := Node.fresh.inj hn
      intro e' he'
      rw [Declaration.constant, mem_singleton] at he'
      rw [he', hez]
      exact hz
    · refine Or.inr ?_
      obtain rfl := Node.fresh.inj hn
      refine ⟨j, d, he.item, rfl, ?_⟩
      intro e' he'
      have := hl.subset j (mem_of_mem_filter he')
      rw [he.item_eq] at this
      exact this

/-! ## The fate of one entity -/

/-- A node that has nothing to do with an entity of statement `i`. -/
def Apart (i : ℕ) (x : String) : Node → Prop
  | .original j => j ≠ i
  | .fresh d => Silent x (.decl d)

/-- The others of a declaration one of whose entities is fixed. -/
def Declaration.others (d : Declaration) (f : Entity) : Declaration :=
  { d with entities := d.entities.filter (· ≠ f) }

/-- Another entity of the declaration is fixed. -/
def OtherFixed (m : Module) (order : List Spec) (d : Declaration) (e : Entity) : Prop :=
  ∃ f ∈ d.entities, Fixed m order f ∧ f ≠ e

/-- **What becomes of entity `e`** of declaration `d` at position `i`: the declaration is still
whole, or `e` has been moved to the end of the specification part, or it is a constant. -/
inductive Fate (m : Module) (order : List Spec) (i : ℕ) (d : Declaration) (e : Entity)
    (part : Part) (remaining : List String) : Prop
  | whole (front back : List Node) (hnodes : part.nodes = front ++ .original i :: back)
      (hapart : OtherFixed m order d e → ∀ n ∈ front ++ back, Apart i e.name n)
      (hlist : part.lists i = d.entities)
      (hleft : ∀ f ∈ d.entities, Fixed m order f → f.name ∈ remaining)
  | moved (front back : List Node) (f : Entity) (hf : f ∈ d.entities) (hfixed : Fixed m order f)
      (hne : f ≠ e) (hdone : f.name ∉ remaining)
      (hnodes : part.nodes = front ++ .fresh (d.others f) :: back)
      (hapart : ∀ n ∈ front ++ back, Apart i e.name n)
      (hlist : part.lists i = (d.others f).entities)
  | constant (hfixed : Fixed m order e) (d' : Declaration) (hmem : .fresh d' ∈ part.nodes)
      (he : e ∈ d'.entities) (hp : hasParameter d'.attrs)

/-- The attributes of a constant. -/
theorem hasParameter_nuattr (attrs : List String) : hasParameter (nuattr attrs) := by
  have hparam : mentionsParameter "PARAMETER" = true := decide_eq_true (infix_refl _)
  unfold nuattr
  split_ifs with h
  · exact h
  · unfold hasParameter
    rw [any_append, Bool.or_eq_true]
    right
    rw [any_cons, hparam]
    rfl

/-- New nodes stay. -/
theorem fresh_mem_fixEntity
    (h : Node.fresh d' ∈ part.nodes) : Node.fresh d' ∈ (part.fixEntity i d e).nodes := by
  have hreplace : ∀ {c : Declaration}, Node.fresh d' ∈ replaceNode i c part.nodes := by
    intro c
    exact mem_map.mpr ⟨_, h, if_neg (fun h => nomatch h)⟩
  unfold Part.fixEntity
  by_cases hlen : (part.lists i).length = 1
  · simp only [hlen, if_true]
    exact hreplace
  · simp only [hlen, if_false]
    exact mem_append_left _ hreplace

/-- The constant is among the nodes when the declaration is in the tree. -/
theorem constant_mem_fixEntity
    (h : Node.original i ∈ part.nodes) (hone : (part.lists i).length = 1 → e ∈ part.lists i) :
    ∃ d', Node.fresh d' ∈ (part.fixEntity i d e).nodes ∧ e ∈ d'.entities ∧
      hasParameter d'.attrs := by
  have hreplace : ∀ {c : Declaration}, Node.fresh c ∈ replaceNode i c part.nodes := by
    intro c
    exact mem_map.mpr ⟨_, h, if_pos rfl⟩
  unfold Part.fixEntity
  by_cases hlen : (part.lists i).length = 1
  · simp only [hlen, if_true]
    exact ⟨_, hreplace, hone hlen, hasParameter_nuattr _⟩
  · simp only [hlen, if_false]
    exact ⟨_, mem_append_left _ hreplace, mem_singleton_self _, hasParameter_nuattr _⟩

/-- What a round on another statement leaves around a node. -/
theorem fixEntity_around {j : ℕ}
    {front back : List Node} {n₀ : Node} (hn : part.nodes = front ++ n₀ :: back)
    (hne : n₀ ≠ .original j) :
    ∃ front' back', (part.fixEntity j d e).nodes = front' ++ n₀ :: back' ∧
      ∀ n ∈ front' ++ back', n ∈ front ++ back ∨ ∃ c : Declaration, n = .fresh c ∧
        c.uses = d.uses ∧ c.entities ⊆ e :: part.lists j := by
  have hreplace : ∀ (c : Declaration) {l : List Node}, ∀ n ∈ replaceNode j c l,
      n ∈ l ∨ n = .fresh c := by
    intro c l n hmem
    obtain ⟨n', hn', rfl⟩ := mem_map.mp hmem
    split_ifs
    · exact Or.inr rfl
    · exact Or.inl hn'
  have hnodes : ∀ c, replaceNode j c part.nodes =
      replaceNode j c front ++ n₀ :: replaceNode j c back := by
    intro c
    unfold replaceNode
    rw [hn, map_append, map_cons, if_neg hne]
  unfold Part.fixEntity
  by_cases hlen : (part.lists j).length = 1
  · simp only [hlen, if_true]
    refine ⟨_, _, hnodes _, ?_⟩
    intro n hmem
    have hc : ∃ c : Declaration, Node.fresh (d.constant (part.lists j)) = .fresh c ∧
        c.uses = d.uses ∧ c.entities ⊆ e :: part.lists j :=
      ⟨_, rfl, rfl, subset_cons_self ..⟩
    rcases mem_append.mp hmem with hmem | hmem
    · rcases hreplace _ n hmem with hmem | rfl
      · exact Or.inl (mem_append_left _ hmem)
      · exact Or.inr hc
    · rcases hreplace _ n hmem with hmem | rfl
      · exact Or.inl (mem_append_right _ hmem)
      · exact Or.inr hc
  · simp only [hlen, if_false]
    have hc : ∃ c : Declaration, Node.fresh (d.constant [e]) = .fresh c ∧
        c.uses = d.uses ∧ c.entities ⊆ e :: part.lists j :=
      ⟨_, rfl, rfl, by simp [Declaration.constant]⟩
    refine ⟨replaceNode j (d.constant [e]) front, replaceNode j (d.constant [e]) back ++
      [.fresh { d with entities := (part.lists j).filter (· ≠ e) }], ?_, ?_⟩
    · rw [hnodes]
      simp
    · intro n hmem
      rw [← append_assoc] at hmem
      rcases mem_append.mp hmem with hmem | hmem
      · rcases mem_append.mp hmem with hmem | hmem
        · rcases hreplace _ n hmem with hmem | rfl
          · exact Or.inl (mem_append_left _ hmem)
          · exact Or.inr hc
        · rcases hreplace _ n hmem with hmem | rfl
          · exact Or.inl (mem_append_right _ hmem)
          · exact Or.inr hc
      · obtain rfl := mem_singleton.mp hmem
        refine Or.inr ⟨_, rfl, rfl, ?_⟩
        intro e' he'
        exact mem_cons_of_mem _ (mem_of_mem_filter he')

end GlobalConstants
