/-
# `_toposort_type_defs`

The derived-type definitions of a specification part are put in depth-first post-order of what they
depend on.  Where this moves one of them all go to the front, before the other declarations.
-/
import Mathlib.Data.List.Sort
import Mathlib.Data.String.Basic
import Mathlib.Logic.Relation
import DaceFortran.Lib.DepthFirst

open Relation List

namespace ArmModules

/-- A name in lower case. -/
abbrev Name := List Char

/-- The equality of names, under a name of its own. -/
scoped instance lawfulName : LawfulBEq (List Char) := List.instLawfulBEq

/-- A declaration of a specification part: a derived type, or a variable or named constant; with the
derived types and the named constants that it uses. -/
structure Item where
  name : Name
  isType : Bool
  types : List Name
  values : List Name
deriving DecidableEq

/-- The names of the derived types. -/
def typeNames (items : List Item) : List Name := (items.filter Item.isType).map Item.name

/-- The names of the variables and named constants. -/
def valueNames (items : List Item) : List Name := (items.filter fun x => !x.isType).map Item.name

/-- `local`: the derived type of a name, the last one if there are several. -/
def localType (items : List Item) (nm : Name) : Option Item :=
  (items.filter Item.isType).reverse.find? fun x => x.name = nm

/-- `sorted` of a set -/
def sorted (names : List Name) : List Name := names.dedup.mergeSort fun a b => decide (a ≤ b)

/-- `deps`, sorted -/
def deps (items : List Item) (nm : Name) : List Name :=
  match localType items nm with
  | some x => sorted (x.types.filter fun y => y ∈ typeNames items ∧ y ≠ nm)
  | none => []

/-- The derived types in post-order. -/
def orderedTypes (items : List Item) : List Item :=
  (DepthFirst.postOrder (deps items) (typeNames items)).filterMap (localType items)

/-- `_toposort_type_defs` -/
def toposortTypeDefs (items : List Item) : List Item :=
  if orderedTypes items = items.filter Item.isType then items
  else orderedTypes items ++ items.filter fun x => !x.isType

/-! ## Definition before use -/

/-- A derived type uses another one. -/
def DependsOn (items : List Item) (a b : Name) : Prop :=
  ∃ x ∈ items, x.isType ∧ x.name = a ∧ b ∈ x.types ∧ b ∈ typeNames items

/-- **Every derived type and every named constant is defined before its use**, unless the derived
types depend on one another cyclically. -/
def DefinedBeforeUse (items : List Item) : Prop := ∀ l x r, items = l ++ x :: r →
  (∀ y ∈ x.values, y ∈ valueNames items → y ∈ valueNames l) ∧
    ∀ y ∈ x.types, y ∈ typeNames items → y ∈ typeNames l ∨ x.isType ∧
      ReflTransGen (DependsOn items) y x.name

/-- The derived types are behind those that they use. -/
def TypesInOrder (items : List Item) : Prop := ∀ l x r, items = l ++ x :: r → x.isType →
  ∀ y ∈ x.types, y ∈ typeNames items → y = x.name ∨ y ∈ typeNames l

/-- The condition on the declarations: derived types in order, and the other uses too; or derived
types that use no named constant from here, and the uses of named constants among the others in
order. -/
def OrderPlain (items : List Item) : Prop :=
  (TypesInOrder items ∧ ∀ l x r, items = l ++ x :: r →
    (∀ y ∈ x.values, y ∈ valueNames items → y ∈ valueNames l) ∧
      (x.isType = false → ∀ y ∈ x.types, y ∈ typeNames items → y ∈ typeNames l)) ∨
    ¬ TypesInOrder items ∧ (∀ x ∈ items, x.isType → ∀ y ∈ x.values, y ∉ valueNames items) ∧
      ∀ l x r, items = l ++ x :: r → x.isType = false → ∀ y ∈ x.values, y ∈ valueNames items →
        y ∈ valueNames l

variable {items : List Item}

theorem mem_sorted {names : List Name} {x : Name} : x ∈ sorted names ↔ x ∈ names := by
  rw [sorted, mem_mergeSort, mem_dedup]

variable {nm : Name} {x : Item} {a b : Name}

theorem mem_typeNames : nm ∈ typeNames items ↔ ∃ x ∈ items, x.isType ∧ x.name = nm := by
  simp [typeNames, and_assoc]

theorem mem_valueNames : nm ∈ valueNames items ↔ ∃ x ∈ items, x.isType = false ∧ x.name = nm := by
  simp [valueNames, and_assoc]

/-- A name that is not declared twice. -/
theorem eq_of_name (hnodup : (items.map Item.name).Nodup) {x y : Item} (hx : x ∈ items)
    (hy : y ∈ items)
    (h : x.name = y.name) : x = y := inj_on_of_nodup_map hnodup hx hy h

theorem localType_eq_some (hnodup : (items.map Item.name).Nodup) :
    localType items nm = some x ↔ x ∈ items ∧ x.isType ∧ x.name = nm := by
  unfold localType
  constructor
  · intro h
    have hmem := mem_of_find?_eq_some h
    rw [mem_reverse, mem_filter] at hmem
    exact ⟨hmem.1, hmem.2, by simpa using List.find?_some h⟩
  · rintro ⟨hx, htype, rfl⟩
    cases h : (items.filter Item.isType).reverse.find? fun y => y.name = x.name with
    | none =>
      refine absurd (List.find?_eq_none.1 h x ?_) (by simp)
      rw [mem_reverse, mem_filter]
      exact ⟨hx, htype⟩
    | some y =>
      have hmem := mem_of_find?_eq_some h
      rw [mem_reverse, mem_filter] at hmem
      rw [eq_of_name hnodup hmem.1 hx (by simpa using List.find?_some h)]

theorem mem_deps (hnodup : (items.map Item.name).Nodup) :
    b ∈ deps items a ↔ DependsOn items a b ∧ b ≠ a := by
  unfold deps DependsOn
  constructor
  · intro h
    split at h
    · rename_i x hx
      obtain ⟨hmem, htype, hname⟩ := (localType_eq_some hnodup).1 hx
      rw [mem_sorted, mem_filter, decide_eq_true_eq] at h
      exact ⟨⟨x, hmem, htype, hname, h.1, h.2.1⟩, h.2.2⟩
    · exact absurd h not_mem_nil
  · rintro ⟨⟨x, hmem, htype, hname, hb, hlocal⟩, hne⟩
    rw [(localType_eq_some hnodup).2 ⟨hmem, htype, hname⟩]
    simp only
    rw [mem_sorted, mem_filter, decide_eq_true_eq]
    exact ⟨hb, hlocal, hne⟩

theorem deps_mem (hnodup : (items.map Item.name).Nodup) (h : b ∈ deps items a) :
    b ∈ typeNames items := by
  obtain ⟨⟨x, -, -, -, -, hb⟩, -⟩ := (mem_deps hnodup).1 h
  exact hb

theorem typeNames_nodup (hnodup : (items.map Item.name).Nodup) : (typeNames items).Nodup :=
  hnodup.sublist (filter_sublist.map Item.name)

/-- The ordered derived types by their names. -/
theorem map_name_orderedTypes (hnodup : (items.map Item.name).Nodup) :
    (orderedTypes items).map Item.name = DepthFirst.postOrder (deps items) (typeNames items) := by
  have hall : ∀ a ∈ DepthFirst.postOrder (deps items) (typeNames items), a ∈ typeNames items :=
    fun a ha =>
    ((DepthFirst.postOrder_spec fun _ _ h => deps_mem hnodup h).2.1 a).1 ha
  unfold orderedTypes
  generalize DepthFirst.postOrder (deps items) (typeNames items) = names at hall
  induction names with
  | nil => rfl
  | cons a names ih =>
    obtain ⟨x, hx, htype, rfl⟩ := mem_typeNames.1 (hall a mem_cons_self)
    rw [filterMap_cons_some ((localType_eq_some hnodup).2 ⟨hx, htype, rfl⟩), map_cons,
      ih fun b hb => hall b (mem_cons_of_mem _ hb)]

theorem mem_orderedTypes (hnodup : (items.map Item.name).Nodup) :
    x ∈ orderedTypes items ↔ x ∈ items ∧ x.isType := by
  unfold orderedTypes
  rw [mem_filterMap]
  constructor
  · rintro ⟨a, -, ha⟩
    obtain ⟨hx, htype, -⟩ := (localType_eq_some hnodup).1 ha
    exact ⟨hx, htype⟩
  · rintro ⟨hx, htype⟩
    refine ⟨x.name, ?_, (localType_eq_some hnodup).2 ⟨hx, htype, rfl⟩⟩
    exact ((DepthFirst.postOrder_spec fun _ _ h => deps_mem hnodup h).2.1 _).2
      (mem_typeNames.2 ⟨x, hx, htype, rfl⟩)

theorem typeNames_append (l r : List Item) : typeNames (l ++ r) = typeNames l ++ typeNames r := by
  rw [typeNames, filter_append, map_append]
  rfl

theorem typeNames_cons_of_isType (hx : x.isType) (r : List Item) :
    typeNames (x :: r) = x.name :: typeNames r := by
  rw [typeNames, filter_cons_of_pos hx, map_cons]
  rfl

/-- A place among the derived types is one among the declarations. -/
theorem exists_split {items : List Item} :
    ∀ {l' r' : List Name} {a : Name}, typeNames items = l' ++ a :: r' →
    ∃ l x r, items = l ++ x :: r ∧ x.isType ∧ x.name = a ∧ typeNames l = l' := by
  induction items with
  | nil => exact fun h => absurd h (by simp [typeNames])
  | cons z items ih =>
    intro l' r' a h
    by_cases hz : z.isType
    · rw [typeNames_cons_of_isType hz] at h
      cases l' with
      | nil =>
        obtain ⟨rfl, -⟩ := List.cons.inj h
        exact ⟨[], z, items, rfl, hz, rfl, rfl⟩
      | cons b l' =>
        obtain ⟨rfl, htail⟩ := List.cons.inj h
        obtain ⟨l, x, r, hitems, hx, hname, hl⟩ := ih htail
        exact ⟨z :: l, x, r, by rw [hitems]; rfl, hx, hname, by rw [typeNames_cons_of_isType hz,
          hl]⟩
    · rw [typeNames, filter_cons_of_neg hz] at h
      obtain ⟨l, x, r, rfl, hx, hname, hl⟩ := ih h
      refine ⟨z :: l, x, r, rfl, hx, hname, ?_⟩
      rw [typeNames, filter_cons_of_neg hz]
      exact hl

/-- **Nothing is moved** exactly where the derived types are in order. -/
theorem orderedTypes_eq_iff (hnodup : (items.map Item.name).Nodup) :
    orderedTypes items = items.filter Item.isType ↔ TypesInOrder items := by
  have hnames : orderedTypes items = items.filter Item.isType ↔
      DepthFirst.postOrder (deps items) (typeNames items) = typeNames items := by
    constructor
    · intro h
      rw [← map_name_orderedTypes hnodup, h, typeNames]
    · intro h
      rw [orderedTypes, h, typeNames]
      have hfind : ∀ xs : List Item, (∀ x ∈ xs, x ∈ items ∧ x.isType) →
          (xs.map Item.name).filterMap (localType items) = xs := by
        intro xs
        induction xs with
        | nil => exact fun _ => rfl
        | cons x xs ih =>
          intro hxs
          obtain ⟨hx, htype⟩ := hxs x mem_cons_self
          rw [map_cons, filterMap_cons_some ((localType_eq_some hnodup).2 ⟨hx, htype, rfl⟩),
            ih fun y hy => hxs y (mem_cons_of_mem x hy)]
      exact hfind _ fun x hx => mem_filter.1 hx
  rw [hnames, DepthFirst.postOrder_eq_iff (fun _ _ h => deps_mem hnodup h) (typeNames_nodup hnodup)]
  constructor
  · intro h l x r heq hx y hy hlocal
    by_cases hyx : y = x.name
    · exact .inl hyx
    · have hsplit : typeNames items = typeNames l ++ x.name :: typeNames r := by
        rw [heq, typeNames_append, typeNames_cons_of_isType hx]
      refine h _ _ _ hsplit y ((mem_deps hnodup).2 ⟨⟨x, ?_, hx, rfl, hy, hlocal⟩, hyx⟩)
      rw [heq]
      exact mem_append_right l mem_cons_self
  · intro h l' a r' heq b hb
    obtain ⟨l, x, r, hitems, hx, rfl, rfl⟩ := exists_split heq
    obtain ⟨⟨z, hz, -, hzname, hbz, hlocal⟩, -⟩ := (mem_deps hnodup).1 hb
    have hzx : z = x := eq_of_name hnodup hz
      (by rw [hitems]; exact mem_append_right l mem_cons_self) hzname
    exact h l x r hitems hx b (hzx ▸ hbz) hlocal

/-- **No declaration is lost or repeated.** -/
theorem toposortTypeDefs_perm (hnodup : (items.map Item.name).Nodup) :
    (toposortTypeDefs items).Perm items := by
  unfold toposortTypeDefs
  split
  · exact List.Perm.refl items
  · have hordered : (orderedTypes items).Perm (items.filter Item.isType) := by
      refine (perm_ext_iff_of_nodup ?_ ((List.Nodup.of_map Item.name hnodup).filter _)).2
        fun x => ?_
      · refine List.Nodup.of_map Item.name ?_
        rw [map_name_orderedTypes hnodup]
        exact (DepthFirst.postOrder_spec fun _ _ h => deps_mem hnodup h).1
      · rw [mem_orderedTypes hnodup, mem_filter]
    exact (hordered.append_right _).trans (filter_append_perm Item.isType items)

/-! ## The order of the declarations -/

/-- Uses of other lists with the same declarations. -/
theorem dependsOn_congr {items' : List Item} (h : ∀ x, x ∈ items ↔ x ∈ items') :
    DependsOn items a b ↔ DependsOn items' a b := by
  unfold DependsOn
  simp only [h, mem_typeNames]

/-- The derived types in their order: each is behind those that it uses, or leads back to it. -/
theorem before_orderedTypes (hnodup : (items.map Item.name).Nodup) {l r : List Item}
    (h : orderedTypes items = l ++ x :: r) {y : Name} (hy : y ∈ x.types)
    (hlocal : y ∈ typeNames items) :
    y ∈ typeNames l ∨ ReflTransGen (DependsOn items) y x.name := by
  have hx : x ∈ items ∧ x.isType :=
    (mem_orderedTypes hnodup).1 (h ▸ mem_append_right l mem_cons_self)
  have hnames := map_name_orderedTypes hnodup
  rw [h, map_append, map_cons] at hnames
  by_cases hyx : y = x.name
  · exact .inr (hyx ▸ ReflTransGen.refl)
  · have hdep : y ∈ deps items x.name := (mem_deps hnodup).2 ⟨⟨x, hx.1, hx.2, rfl, hy, hlocal⟩, hyx⟩
    rcases (DepthFirst.postOrder_spec fun _ _ h => deps_mem hnodup h).2.2 _ _ _ hnames.symm y hdep
      with hl | hcycle
    · obtain ⟨z, hz, rfl⟩ := mem_map.1 hl
      have hztype : z.isType := ((mem_orderedTypes hnodup).1 (h ▸ mem_append_left _ hz)).2
      exact .inl (mem_typeNames.2 ⟨z, hz, hztype, rfl⟩)
    · have hle : DepthFirst.Edge (deps items) ≤ DependsOn items :=
        fun a b hab => ((mem_deps hnodup).1 hab).1
      exact .inr (ReflTransGen.mono hle _ _ hcycle)

/-- **Exactly when every definition is before its uses.** -/
theorem definedBeforeUse_iff (hnodup : (items.map Item.name).Nodup) :
    DefinedBeforeUse (toposortTypeDefs items) ↔ OrderPlain items := by
  unfold toposortTypeDefs
  by_cases horder : TypesInOrder items
  · rw [if_pos ((orderedTypes_eq_iff hnodup).2 horder)]
    constructor
    · intro h
      refine .inl ⟨horder, fun l x r heq => ⟨(h l x r heq).1, fun hx y hy hlocal => ?_⟩⟩
      exact ((h l x r heq).2 y hy hlocal).resolve_right fun hcycle =>
        absurd (hx.symm.trans hcycle.1) (by simp)
    · rintro (⟨-, h⟩ | ⟨hnot, -⟩)
      · intro l x r heq
        refine ⟨(h l x r heq).1, fun y hy hlocal => ?_⟩
        by_cases hx : x.isType
        · rcases horder l x r heq hx y hy hlocal with rfl | hl
          · exact .inr ⟨hx, ReflTransGen.refl⟩
          · exact .inl hl
        · exact .inl ((h l x r heq).2 (by simpa using hx) y hy hlocal)
      · exact absurd horder hnot
  · rw [if_neg fun h => horder ((orderedTypes_eq_iff hnodup).1 h)]
    have hperm : (orderedTypes items ++ items.filter fun x => !x.isType).Perm items := by
      have hsort := toposortTypeDefs_perm hnodup
      rwa [toposortTypeDefs, if_neg fun h => horder ((orderedTypes_eq_iff hnodup).1 h)] at hsort
    have hmem : ∀ x, x ∈ (orderedTypes items ++ items.filter fun x => !x.isType) ↔ x ∈ items :=
      fun x => hperm.mem_iff
    have htypes : ∀ y, y ∈ typeNames (orderedTypes items ++ items.filter fun x => !x.isType) ↔
        y ∈ typeNames items := by
      intro y
      simp only [mem_typeNames, hmem]
    have hvalues : ∀ y,
        y ∈ valueNames (orderedTypes items ++ items.filter fun x => !x.isType) ↔
          y ∈ valueNames items := by
      intro y
      simp only [mem_valueNames, hmem]
    -- the derived types in front have no other declarations before them
    have hfront : ∀ {l : List Item}, (∀ z ∈ l, z ∈ orderedTypes items) → ∀ y, y ∉ valueNames l := by
      intro l hl y hy
      obtain ⟨z, hz, hztype, -⟩ := mem_valueNames.1 hy
      exact absurd (((mem_orderedTypes hnodup).1 (hl z hz)).2.symm.trans hztype) (by simp)
    constructor
    · intro h
      refine .inr ⟨horder, fun x hx hxtype y hy hlocal => ?_,
        fun l x r heq hxtype y hy hlocal => ?_⟩
      · obtain ⟨l, r, heq⟩ := append_of_mem ((mem_orderedTypes hnodup).2 ⟨hx, hxtype⟩)
        have hsplit : (orderedTypes items ++ items.filter fun x => !x.isType) =
            l ++ x :: (r ++ items.filter fun x => !x.isType) := by rw [heq, append_assoc]; rfl
        exact hfront (fun z hz => heq ▸ mem_append_left _ hz) y
          ((h _ _ _ hsplit).1 y hy ((hvalues y).2 hlocal))
      · have hsplit : (orderedTypes items ++ items.filter fun x => !x.isType) =
            (orderedTypes items ++ l.filter fun x => !x.isType) ++ x ::
              r.filter fun x => !x.isType := by
          rw [heq, filter_append, filter_cons_of_pos (by simp [hxtype]), append_assoc]
        obtain ⟨z, hz, hztype, hzname⟩ :=
          mem_valueNames.1 ((h _ _ _ hsplit).1 y hy ((hvalues y).2 hlocal))
        rcases mem_append.1 hz with hz | hz
        · exact absurd (mem_valueNames.2 ⟨z, hz, hztype, hzname⟩) (hfront (fun _ h => h) y)
        · exact mem_valueNames.2 ⟨z, (mem_filter.1 hz).1, hztype, hzname⟩
    · rintro (⟨h, -⟩ | ⟨-, htypeValues, hothers⟩)
      · exact absurd h horder
      · intro l x r heq
        -- one of the other declarations: all derived types are before it
        have hother : ∀ m, l = orderedTypes items ++ m →
          (items.filter fun x => !x.isType) = m ++ x :: r →
            (∀ y ∈ x.values, y ∈ valueNames items → y ∈ valueNames l) ∧
              ∀ y ∈ x.types, y ∈ typeNames items → y ∈ typeNames l := by
          intro m hl hm
          obtain ⟨k, k₂, hitems, hk, hk₂⟩ := filter_eq_append_iff.1 hm
          obtain ⟨k₃, k₄, rfl, hk₃, hx, hk₄⟩ := filter_eq_cons_iff.1 hk₂
          have hsplit : items = (k ++ k₃) ++ x :: k₄ := by rw [hitems, append_assoc]
          refine ⟨fun y hy hlocal => ?_, fun y hy hlocal => ?_⟩
          · obtain ⟨z, hz, hztype, hzname⟩ :=
              mem_valueNames.1 (hothers _ x _ hsplit (by simpa using hx) y hy hlocal)
            refine mem_valueNames.2 ⟨z, ?_, hztype, hzname⟩
            rw [hl, ← hk]
            rcases mem_append.1 hz with hz | hz
            · exact mem_append_right _ (mem_filter.2 ⟨hz, by simp [hztype]⟩)
            · exact absurd hztype (by simpa using hk₃ z hz)
          · obtain ⟨z, hz, hztype, hzname⟩ := mem_typeNames.1 hlocal
            refine mem_typeNames.2 ⟨z, ?_, hztype, hzname⟩
            rw [hl]
            exact mem_append_left _ ((mem_orderedTypes hnodup).2 ⟨hz, hztype⟩)
        have hdone : ((∀ y ∈ x.values, y ∈ valueNames items → y ∈ valueNames l) ∧
            ∀ y ∈ x.types, y ∈ typeNames items → y ∈ typeNames l ∨
              x.isType ∧ ReflTransGen (DependsOn items) y x.name) := by
          rcases append_eq_append_iff.1 heq with ⟨m, hl, hm⟩ | ⟨m, hl, hm⟩
          · exact ⟨(hother m hl hm).1, fun y hy hlocal => .inl ((hother m hl hm).2 y hy hlocal)⟩
          · cases m with
            | nil =>
              have h := hother [] (by rw [hl, append_nil, append_nil]) hm.symm
              exact ⟨h.1, fun y hy hlocal => .inl (h.2 y hy hlocal)⟩
            | cons z m =>
              obtain ⟨rfl, -⟩ := List.cons.inj hm
              have hx := (mem_orderedTypes hnodup).1 (hl ▸ mem_append_right l mem_cons_self)
              refine ⟨fun y hy hlocal => absurd hlocal (htypeValues x hx.1 hx.2 y hy),
                fun y hy hlocal => ?_⟩
              exact (before_orderedTypes hnodup hl hy hlocal).imp_right fun h => ⟨hx.2, h⟩
        refine ⟨fun y hy hlocal => hdone.1 y hy ((hvalues y).1 hlocal), fun y hy hlocal => ?_⟩
        refine (hdone.2 y hy ((htypes y).1 hlocal)).imp_right fun h => ⟨h.1, ?_⟩
        have hle : DependsOn items ≤
          DependsOn (orderedTypes items ++ items.filter fun x => !x.isType) := fun a b hab =>
          (dependsOn_congr hmem).2 hab
        exact ReflTransGen.mono hle _ _ h.2

end ArmModules

/-
# `consolidate_arm_module`

The module of an arm type is merged into the module of its base type.  Variables and named constants
of the arm's module that are declared in both get a suffix; what the two modules import from each
other is dropped; the derived types are ordered in the end.
-/

namespace ArmModules

/-- A module: the two that are merged, or another one. -/
inductive Place where
  | base
  | arm
  | other (m : Name)
deriving DecidableEq

/-- A declared entity: its module and its name there. -/
abbrev Entity := Place × Name

/-- A name over a `USE` statement: the name here, the module and the name there, and whether the
statement has these names (in an `ONLY` or a rename). -/
structure Import where
  name : Name
  via : Place
  source : Name
  listed : Bool

/-- A procedure that a reference is in: the names that it declares by type declarations, its
internal procedures, each with the names that it declares so itself, and its imports. -/
structure Frame where
  typed : List Name
  inner : List (Name × List Name)
  imports : List Import

/-- A reference with the procedures around it, the innermost one first. -/
structure Ref where
  frames : List Frame
  name : Name

/-- A component of a derived type or a dummy argument.  For one in the arm's module: the names that
its procedure declares by type declarations, none around a derived type. -/
structure Label where
  name : Name
  typed : Option (List Name)

/-- A component selector `p%n` or an argument keyword `n=`, in a procedure that declares some names
by type declarations, with the components or the dummy arguments it is one of. -/
structure Selector where
  typed : List Name
  owner : List Label
  name : Name

/-- A module. -/
structure Module where
  items : List Item
  procs : List Name
  imports : List Import
  refs : List Ref
  selectors : List Selector

/-- The names that a module declares. -/
def Module.declared (M : Module) : List Name := M.items.map Item.name ++ M.procs

/-- The two modules, the name of the arm's module, what modules export, and the derived types and
procedures with their components or dummy arguments, the inherited components included. -/
structure Program where
  base : Module
  arm : Module
  armName : Name
  exports : Place → Name → Option Entity
  owners : List (List Label)

/-! ## Resolution of names -/

/-- What a name denotes: something of the procedure at a depth, or an entity of a module. -/
inductive Den where
  | here (depth : ℕ) (x : Name)
  | global (e : Entity)

/-- A procedure as names are looked up in it: the names with what they stand for, and the
imports. -/
structure View where
  names : List (Name × Name)
  imports : List Import

/-- An import of a name. -/
def findImport (imports : List Import) (x : Name) : Option Import :=
  imports.find? fun i => i.name = x

/-- A name is looked up in the procedures, from the innermost one on, and then in the module. -/
def resolve (exports : Place → Name → Option Entity) (scope : Name → Option Entity) (x : Name) :
    ℕ → List View → Option Den
  | _, [] => (scope x).map .global
  | d, v :: vs => match v.names.lookup x with
    | some y => some (.here d y)
    | none => match findImport v.imports x with
      | some i => (exports i.via i.source).map .global
      | none => resolve exports scope x (d + 1) vs

namespace Program

variable (P : Program)

/-- The names of a module. -/
def scope (place : Place) (M : Module) (x : Name) : Option Entity :=
  if x ∈ M.declared then some (place, x) else (findImport M.imports x).bind fun i =>
    P.exports i.via i.source

end Program

/-- A procedure before the merge. -/
def Frame.view (f : Frame) : View where
  names := f.typed.map (fun x => (x, x)) ++ f.inner.map fun p => (p.1, p.1)
  imports := f.imports

/-! ## The merge -/

/-- `f"{nm}__{arm_name}"` -/
def suffixed (armName x : Name) : Name := x ++ ['_', '_'] ++ armName

/-- A `USE` of a third module. -/
def Import.kept (i : Import) : Bool := match i.via with
  | .other _ => true
  | _ => false

/-- `_rename_module_scope_entity` for one name node after another name: the procedures that declare
a name by a type declaration are skipped for it. -/
def renameText (collisions : List Name) (armName : Name) (typed : List Name) (x : Name) : Name :=
  collisions.foldl (fun t old => if t = old ∧ old ∉ typed then suffixed armName old else t) x

def renameItem (collisions : List Name) (armName : Name) (x : Item) : Item where
  name := renameText collisions armName [] x.name
  isType := x.isType
  types := x.types.map (renameText collisions armName [])
  values := x.values.map (renameText collisions armName [])

/-- The names that stand in a `USE` statement. -/
def renameImport (collisions : List Name) (armName : Name) (typed : List Name) (i : Import) :
    Import :=
  if i.listed then
    { i with
      name := renameText collisions armName typed i.name
      source := renameText collisions armName typed i.source }
  else i

/-- A procedure after the merge.  The name of an internal procedure stands in itself. -/
def Frame.merged (collisions : List Name) (armName : Name) (f : Frame) : View where
  names := f.typed.map (fun x => (x, x)) ++
    f.inner.map fun p => (renameText collisions armName p.2 p.1, p.1)
  imports := (f.imports.map (renameImport collisions armName f.typed)).filter Import.kept

/-- The names that the procedure of a reference declares by type declarations. -/
def Ref.typed (r : Ref) : List Name := (r.frames.head?.map Frame.typed).getD []

namespace Program

variable (P : Program)

/-- The names that both modules declare by type declarations, sorted. -/
def collisions : List Name :=
  sorted ((valueNames P.arm.items).filter fun x => x ∈ valueNames P.base.items)

/-- A name of the arm's module after the renaming. -/
def rename (typed : List Name) (x : Name) : Name := renameText P.collisions P.armName typed x

/-- A component or a dummy argument after the merge. -/
def mergedLabel (l : Label) : Name := match l.typed with
  | some typed => P.rename typed l.name
  | none => l.name

/-- The declarations of the merged module before they are ordered. -/
def mergedItems : List Item := P.base.items ++ P.arm.items.map (renameItem P.collisions P.armName)

/-- The names that the merged module declares, with the entities. -/
def mergedDeclared : List (Name × Entity) :=
  P.base.declared.map (fun x => (x, (.base, x))) ++ P.arm.declared.map fun x =>
    (P.rename [] x, (.arm, x))

/-- The imports of the merged module. -/
def mergedImports : List Import :=
  (P.arm.imports.map (renameImport P.collisions P.armName [])).filter Import.kept ++
    P.base.imports.filter Import.kept

/-- The names of the merged module. -/
def mergedScope (x : Name) : Option Entity := match P.mergedDeclared.lookup x with
  | some e => some e
  | none => (findImport P.mergedImports x).bind fun i => P.exports i.via i.source

/-! ## What the merge keeps -/

/-- **Every name of the merged module denotes one entity**, also among the components of a derived
type and the dummy arguments of a procedure. -/
def OneEntity : Prop := (P.mergedDeclared.map Prod.fst).Nodup ∧
  (∀ i ∈ P.mergedImports, i.name ∉ P.mergedDeclared.map Prod.fst) ∧
    (∀ i ∈ P.mergedImports, ∀ j ∈ P.mergedImports, i.name = j.name →
      P.exports i.via i.source = P.exports j.via j.source) ∧
      ∀ o ∈ P.owners, (o.map P.mergedLabel).Nodup

/-- **Every reference of either module denotes what it denoted.** -/
def KeepsRefs : Prop :=
  (∀ r ∈ P.base.refs, resolve P.exports P.mergedScope r.name 0
    (r.frames.map (Frame.merged [] P.armName)) =
      resolve P.exports (P.scope .base P.base) r.name 0 (r.frames.map Frame.view)) ∧
    ∀ r ∈ P.arm.refs,
      resolve P.exports P.mergedScope (P.rename r.typed r.name) 0
        (r.frames.map (Frame.merged P.collisions P.armName)) =
        resolve P.exports (P.scope .arm P.arm) r.name 0 (r.frames.map Frame.view)

/-- **Every selector and keyword of either module names the component or dummy argument that it
named.** -/
def KeepsSelectors : Prop :=
  (∀ s ∈ P.base.selectors, ∀ l ∈ s.owner, P.mergedLabel l = s.name ↔ l.name = s.name) ∧
    ∀ s ∈ P.arm.selectors, ∀ l ∈ s.owner, P.mergedLabel l = P.rename s.typed s.name ↔
      l.name = s.name

/-- **The merge keeps names apart and in order**, with no declaration lost or repeated. -/
def Consolidates : Prop := P.OneEntity ∧ (P.KeepsRefs ∧ P.KeepsSelectors) ∧
  (toposortTypeDefs P.mergedItems).Perm P.mergedItems ∧
    DefinedBeforeUse (toposortTypeDefs P.mergedItems)

end Program

end ArmModules
