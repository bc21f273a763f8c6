/-
# The fate of an entity through the last loop

One round takes an entity of a split declaration from one fate to the next
(`Fate.fix`), so all rounds do (`fate_fixAll`), and an entity that is not the
constant ends up declared once, before its uses, with its type and attributes.
-/
import DaceFortran.GlobalConstants.DeclarationSurgery

open Procedures List

namespace GlobalConstants

variable {m : Module} {order : List Spec} {i : ℕ} {d : Declaration} {e : Entity}

/-! ## Other statements are silent -/

/-- A declaration stands between the statements before it and those after it. -/
theorem DeclaredAt.items_eq (h : DeclaredAt m i d e) :
    m.items = m.items.take i ++ .decl d :: m.items.drop (i + 1) := by
  obtain ⟨hi, hi'⟩ := List.getElem?_eq_some_iff.mp h.item
  rw [← hi', getElem_cons_drop, take_append_drop]

/-- In a valid module no use comes before the declaration. -/
theorem DeclaredAt.uses (hm : m.Valid) (h : DeclaredAt m i d e) {before after : List Entity}
    (hd : d.entities = before ++ e :: after) :
    (∀ item ∈ m.items.take i, .use e.name ∉ item.events) ∧ e.name ∉ d.uses ∧
      ∀ e' ∈ before ++ [e], e.name ∉ e'.uses := by
  have hmem : e.name ∈ m.names :=
    mem_flatMap.mpr ⟨_, mem_of_getElem? h.item, mem_map.mpr ⟨e, h.mem, rfl⟩⟩
  have hevents : m.items.flatMap SpecItem.events =
      ((m.items.take i).flatMap SpecItem.events ++ (d.uses.map .use ++
        (before.flatMap Entity.events ++ e.uses.map .use))) ++ .declare e.name ::
        (after.flatMap Entity.events ++ (m.items.drop (i + 1)).flatMap SpecItem.events) := by
    conv_lhs => rw [h.items_eq]
    simp [SpecItem.events, hd, Entity.events]
  have huse := ((hm.before _ hmem).split hevents).1
  simp only [mem_append, mem_flatMap, mem_map, not_or] at huse
  obtain ⟨h₁, h₂, h₃, h₄⟩ := huse
  refine ⟨?_, ?_, ?_⟩
  · intro item hitem hev
    exact h₁ ⟨item, hitem, hev⟩
  · intro hx
    exact h₂ ⟨_, hx, rfl⟩
  · intro e' he' hx
    rcases mem_append.mp he' with he' | he'
    · exact h₃ ⟨e', he', mem_append_left _ (mem_map.mpr ⟨_, hx, rfl⟩)⟩
    · rw [mem_singleton] at he'
      subst he'
      exact h₄ ⟨_, hx, rfl⟩

variable {x : String} {front back : List Node}

variable {item : SpecItem} {f f' : Entity}

/-- A name that a declaration uses is met there. -/
theorem use_mem_events (h : .declare x ∈ item.events) :
    x ∈ item.entities.map Entity.name := by
  rcases item with d | u
  · rcases mem_append.mp h with h | h
    · obtain ⟨_, -, h⟩ := mem_map.mp h
      cases h
    · obtain ⟨e, he, h⟩ := mem_flatMap.mp h
      rcases mem_append.mp h with h | h
      · obtain ⟨_, -, h⟩ := mem_map.mp h
        cases h
      · rw [Event.declare.inj (mem_singleton.mp h)]
        exact mem_map.mpr ⟨e, he, rfl⟩
  · obtain ⟨_, -, h⟩ := mem_map.mp h
    cases h

/-- Where another entity is fixed, every other statement is silent about `e`. -/
theorem DeclaredAt.silent (hm : m.Valid) (h : DeclaredAt m i d e)
    (hs : Splittable m order i d) (ho : OtherFixed m order d e) {j : ℕ}
    (hj : m.items[j]? = some item) (hne : j ≠ i) : Silent e.name item := by
  constructor
  · intro huse
    rcases Nat.lt_or_gt_of_ne hne with hlt | hlt
    · obtain ⟨before, after, hd⟩ := append_of_mem h.mem
      refine (h.uses hm hd).1 item ?_ huse
      refine mem_of_getElem? (i := j) ?_
      rw [List.getElem?_take_of_lt hlt, hj]
    · obtain ⟨f, hf, hfixed, hfe⟩ := ho
      exact hs.later f hf e h.mem hfixed hfe j item hlt hj huse
  · intro hdecl
    obtain ⟨e', he', hn⟩ := mem_map.mp (use_mem_events hdecl)
    rcases item with d' | u
    · exact hne (DeclaredAt.unique hm.names_nodup ⟨hj, he'⟩ h hn).1
    · cases he'

/-! ## One round -/

variable {part : Part} {remaining : List String}

/-- A round on another statement keeps what is apart. -/
theorem apart_fixEntity (hm : m.Valid) (h : DeclaredAt m i d e) (hs : Splittable m order i d)
    (ho : OtherFixed m order d e)
    (hl : Lists m part remaining) {j : ℕ} {d' : Declaration} {e' : Entity}
    (he' : DeclaredAt m j d' e') (hne : j ≠ i) {nodes : List Node}
    (hold : ∀ n ∈ nodes, Apart i e.name n) {n : Node}
    (hn : n ∈ nodes ∨ ∃ c : Declaration, n = .fresh c ∧ c.uses = d'.uses ∧
      c.entities ⊆ e' :: part.lists j) : Apart i e.name n := by
  rcases hn with hn | ⟨c, rfl, hu, hc⟩
  · exact hold n hn
  · refine (h.silent hm hs ho he'.item hne).of_subset (events_subset hu ?_)
    intro e'' he''
    rcases mem_cons.mp (hc he'') with rfl | hmem
    · exact he'.mem
    · have := hl.subset j hmem
      rw [he'.item_eq] at this
      exact this

/-- The entities of a declaration are different. -/
theorem DeclaredAt.entities_nodup (hm : m.Valid) (h : DeclaredAt m i d e) : d.entities.Nodup := by
  have hn := (nodup_flatMap.mp hm.names_nodup).1 _ (mem_of_getElem? h.item)
  exact List.Nodup.of_map _ hn

/-- Of two entities that are fixed the other one is left alone. -/
theorem others_length {l : List Entity} (hf : f ∈ l) (hf' : f' ∈ l)
    (hne : f ≠ f') (hlen : l.length ≤ 2) : (l.filter (· ≠ f)).length = 1 := by
  have hpos : 0 < (l.filter (· ≠ f)).length := by
    refine length_pos_of_mem (a := f') (mem_filter.mpr ⟨hf', ?_⟩)
    simpa using fun h : f' = f => hne h.symm
  have hlt : (l.filter (· ≠ f)).length < l.length := by
    refine length_filter_lt_length_iff_exists.mpr ⟨f, hf, ?_⟩
    simp
  omega

/-- A round on the declaration while it is whole. -/
theorem fate_of_whole (hm : m.Valid) (h : DeclaredAt m i d e) (hs : Splittable m order i d)
    (hnodes : part.nodes = front ++ .original i :: back)
    (hapart : OtherFixed m order d e → ∀ n ∈ front ++ back, Apart i e.name n)
    (hlist : part.lists i = d.entities) (hf : f ∈ d.entities)
    (hfixed : Fixed m order f) (hdone : f.name ∉ remaining) :
    Fate m order i d e (part.fixEntity i d f) remaining := by
  have horig : Node.original i ∈ part.nodes := by
    rw [hnodes]
    exact mem_append_right _ (mem_cons_self ..)
  by_cases hfe : f = e
  · subst hfe
    obtain ⟨c, hc, hmem, hp⟩ := constant_mem_fixEntity (d := d) (e := f) horig
      (fun _ => by rw [hlist]; exact hf)
    exact .constant hfixed c hc hmem hp
  · have hlen : (part.lists i).length ≠ 1 := by
      intro hlen
      rw [hlist] at hlen
      obtain ⟨e₁, hone⟩ := length_eq_one_iff.mp hlen
      have h₁ := h.mem
      rw [hone, mem_singleton] at h₁ hf
      exact hfe (hf.trans h₁.symm)
    have ho : OtherFixed m order d e := ⟨f, hf, hfixed, hfe⟩
    refine .moved (replaceNode i (d.constant [f]) part.nodes) [] f hf hfixed hfe hdone ?_ ?_ ?_
    · rw [hlist] at hlen
      unfold Part.fixEntity
      simp only [hlist, hlen, if_false]
      rfl
    · intro n hn
      rw [append_nil] at hn
      obtain ⟨n', hn', rfl⟩ := mem_map.mp hn
      by_cases hi : n' = .original i
      · rw [if_pos hi]
        obtain ⟨before, after, hd⟩ := append_of_mem h.mem
        have hown := hs.own f hf e h.mem hfixed hfe
        obtain ⟨-, huses, -⟩ := h.uses hm hd
        have hname : f.name ≠ e.name := by
          intro hn
          exact hfe (DeclaredAt.unique hm.names_nodup ⟨h.item, hf⟩ h hn).2.2
        constructor
        · simp [SpecItem.events, Declaration.constant, Entity.events, huses, hown]
        · simp [SpecItem.events, Declaration.constant, Entity.events]
          exact fun hn => hname hn.symm
      · rw [if_neg hi]
        rw [hnodes] at hn'
        rcases mem_append.mp hn' with hn' | hn'
        · exact hapart ho n' (mem_append_left _ hn')
        · rcases mem_cons.mp hn' with hn' | hn'
          · exact absurd hn' hi
          · exact hapart ho n' (mem_append_right _ hn')
    · rw [hlist] at hlen
      unfold Part.fixEntity
      simp only [hlist, hlen, if_false, if_true]
      rfl

/-- A round on the declaration after it was split: its only other fixed entity stays. -/
theorem fate_of_moved (hs : Splittable m order i d)
    (hf : f ∈ d.entities) (hfixed : Fixed m order f) (hne : f ≠ e) (hdone : f.name ∉ remaining)
    (hnodes : part.nodes = front ++ .fresh (d.others f) :: back)
    (hapart : ∀ n ∈ front ++ back, Apart i e.name n)
    (hlist : part.lists i = (d.others f).entities) (hf' : f' ∈ d.entities)
    (hfixed' : Fixed m order f') (hff : f ≠ f') :
    Fate m order i d e (part.fixEntity i d f') remaining := by
  have hlen : (part.lists i).length = 1 := by
    rw [hlist]
    exact others_length hf hf' hff (hs.pair f hf f' hf' hfixed hfixed' hff)
  have hgone : ∀ c, replaceNode i c part.nodes = part.nodes := by
    intro c
    unfold replaceNode
    conv_rhs => rw [← map_id part.nodes]
    apply map_congr_left
    intro n hn
    rw [if_neg]
    · rfl
    · rintro rfl
      rw [hnodes] at hn
      rcases mem_append.mp hn with hn | hn
      · exact hapart _ (mem_append_left _ hn) rfl
      · rcases mem_cons.mp hn with hn | hn
        · cases hn
        · exact hapart _ (mem_append_right _ hn) rfl
  have hsame : part.fixEntity i d f' = part := by
    unfold Part.fixEntity
    simp only [hlen, if_true, hgone]
  rw [hsame]
  exact .moved front back f hf hfixed hne hdone hnodes hapart hlist

/-- **One round.** -/
theorem Fate.fix (hm : m.Valid) (h : DeclaredAt m i d e) (hs : Splittable m order i d)
    {z : String}
    (hl : Lists m part (z :: remaining)) (hz : z ∉ remaining) (horder : [m.name, z] ∈ order)
    (hfate : Fate m order i d e part (z :: remaining)) :
    Fate m order i d e (m.fix part z) remaining := by
  -- a round on the name of no entity changes nothing
  rcases fix_cases hm.names_nodup part z with ⟨hf, hnone⟩ | ⟨j, d', e', he', hez, hinit, hf⟩
  · rw [hf]
    cases hfate with
    | whole front back hnodes hapart hlist hleft =>
      refine .whole front back hnodes hapart hlist ?_
      intro f hmem hfixed
      rcases mem_cons.mp (hleft f hmem hfixed) with hfz | hfr
      · have := hnone i d f ⟨h.item, hmem⟩ hfz
        rw [hfixed.1] at this
        cases this
      · exact hfr
    | moved front back f hmem hfixed hne hdone hnodes hapart hlist =>
      exact .moved front back f hmem hfixed hne (fun hr => hdone (mem_cons_of_mem _ hr))
        hnodes hapart hlist
    | constant hfixed c hmem he hp => exact .constant hfixed c hmem he hp
  · rw [hf]
    have hfixed' : Fixed m order e' := ⟨hinit, by rw [hez]; exact horder⟩
    have hdone' : e'.name ∉ remaining := by
      rw [hez]
      exact hz
    by_cases hj : j = i
    · subst hj
      have hd : d' = d := by
        have := he'.item.symm.trans h.item
        exact SpecItem.decl.inj (Option.some.inj this)
      subst hd
      cases hfate with
      | whole front back hnodes hapart hlist hleft =>
        exact fate_of_whole hm h hs hnodes hapart hlist he'.mem hfixed' hdone'
      | moved front back f hmem hfixed hne hdone hnodes hapart hlist =>
        refine fate_of_moved hs hmem hfixed hne
          (fun hr => hdone (mem_cons_of_mem _ hr)) hnodes hapart hlist he'.mem hfixed' ?_
        rintro rfl
        exact hdone (by rw [hez]; exact mem_cons_self ..)
      | constant hfixed c hmem he hp =>
        exact .constant hfixed c (fresh_mem_fixEntity hmem) he hp
    · -- a round on another statement
      have hlists : (part.fixEntity j d' e').lists i = part.lists i := by
        unfold Part.fixEntity
        by_cases hlen : (part.lists j).length = 1
        · simp only [hlen, if_true]
        · simp only [hlen, if_false]
          exact if_neg (Ne.symm hj)
      cases hfate with
      | whole front back hnodes hapart hlist hleft =>
        obtain ⟨front', back', hnodes', haround⟩ :=
          fixEntity_around (d := d') (e := e') hnodes (fun hn => hj (Node.original.inj hn).symm)
        refine .whole front' back' hnodes' ?_ (hlists.trans hlist) ?_
        · intro ho n hn
          exact apart_fixEntity hm h hs ho hl he' hj (hapart ho) (haround n hn)
        · intro f hmem hfixed
          rcases mem_cons.mp (hleft f hmem hfixed) with hfz | hfr
          · have := (DeclaredAt.unique hm.names_nodup ⟨h.item, hmem⟩ he' (hfz.trans hez.symm)).1
            exact absurd this.symm hj
          · exact hfr
      | moved front back f hmem hfixed hne hdone hnodes hapart hlist =>
        obtain ⟨front', back', hnodes', haround⟩ :=
          fixEntity_around (j := j) (d := d') (e := e') hnodes (fun hn => nomatch hn)
        refine .moved front' back' f hmem hfixed hne
          (fun hr => hdone (mem_cons_of_mem _ hr)) hnodes' ?_ (hlists.trans hlist)
        intro n hn
        exact apart_fixEntity hm h hs ⟨f, hmem, hfixed, hne⟩ hl he' hj hapart (haround n hn)
      | constant hfixed c hmem he hp =>
        exact .constant hfixed c (fresh_mem_fixEntity hmem) he hp

/-! ## All rounds -/

/-- The lists through all rounds. -/
theorem fold_lists (hm : m.Valid) : ∀ {names : List String} {part : Part}, names.Nodup →
    Lists m part names → Lists m (names.foldl m.fix part) []
  | [], _, _, h => h
  | z :: names, part, hn, h => by
    obtain ⟨hz, hn⟩ := nodup_cons.mp hn
    show Lists m (names.foldl m.fix (m.fix part z)) []
    exact fold_lists hm hn (h.fix hm.names_nodup hz)

/-- **The entity through all rounds.** -/
theorem fold_fate (hm : m.Valid) (h : DeclaredAt m i d e) (hs : Splittable m order i d) :
    ∀ {names : List String} {part : Part}, names.Nodup → (∀ z ∈ names, [m.name, z] ∈ order) →
      Lists m part names → Fate m order i d e part names →
      Fate m order i d e (names.foldl m.fix part) []
  | [], _, _, _, _, hfate => hfate
  | z :: names, part, hn, ho, hl, hfate => by
    obtain ⟨hz, hn⟩ := nodup_cons.mp hn
    have hmem : [m.name, z] ∈ order := ho z (mem_cons_self ..)
    show Fate m order i d e (names.foldl m.fix (m.fix part z)) []
    exact fold_fate hm h hs hn (fun z' hz' => ho z' (mem_cons_of_mem _ hz'))
      (hl.fix hm.names_nodup hz) (hfate.fix hm h hs hl hz hmem)

/-- The new declarations through all rounds. -/
theorem fold_justified (hm : m.Valid) : ∀ {names : List String} {part : Part}, names.Nodup →
    (∀ z ∈ names, [m.name, z] ∈ order) → Lists m part names →
    (∀ d', Node.fresh d' ∈ part.nodes → Justified m order d') →
    ∀ d', Node.fresh d' ∈ (names.foldl m.fix part).nodes → Justified m order d'
  | [], _, _, _, _, h => h
  | z :: names, part, hn, ho, hl, h => by
    obtain ⟨hz, hn⟩ := nodup_cons.mp hn
    have hmem : [m.name, z] ∈ order := ho z (mem_cons_self ..)
    show ∀ d', Node.fresh d' ∈ (names.foldl m.fix (m.fix part z)).nodes → Justified m order d'
    exact fold_justified hm hn (fun z' hz' => ho z' (mem_cons_of_mem _ hz'))
      (hl.fix hm.names_nodup hz) (fix_justified hm.names_nodup hl hmem h)

/-- The variables of a module are those of the order. -/
theorem mem_own : x ∈ m.own order ↔ [m.name, x] ∈ order := by
  unfold Module.own
  rw [mem_filterMap]
  constructor
  · rintro ⟨s, hs, hx⟩
    split at hx
    · split_ifs at hx with hn
      obtain rfl := Option.some.inj hx
      rw [← hn]
      exact hs
    · cases hx
  · intro hx
    exact ⟨_, hx, by simp⟩

theorem spec_of_own {s : Spec} (hs : x ∈ match s with
      | [n, x] => if n = m.name then some x else none
      | _ => none) : s = [m.name, x] := by
  split at hs
  · split_ifs at hs with hn
    · obtain rfl := Option.some.inj hs
      rw [hn]
    · cases hs
  · cases hs

theorem own_nodup (ho : order.Nodup) : (m.own order).Nodup := by
  refine ho.filterMap ?_
  intro s s' x hs hs'
  exact (spec_of_own hs).trans (spec_of_own hs').symm

/-- **The fate of an entity of a split declaration** after the pass. -/
theorem fate_fixAll (hm : m.Valid) (ho : order.Nodup) (h : DeclaredAt m i d e)
    (hs : Splittable m order i d) : Fate m order i d e (m.fixAll order) [] := by
  have hlists := lists_part m (m.own order)
  refine fold_fate hm h hs (own_nodup ho) (fun z hz => mem_own.mp hz) hlists ?_
  have hi : i < m.items.length := (List.getElem?_eq_some_iff.mp h.item).1
  have hsplit : List.range m.items.length =
      List.range i ++ i :: (List.range' (i + 1) (m.items.length - (i + 1))) := by
    rw [range_eq_range', range_eq_range', ← List.range'_succ]
    have hlen : m.items.length = i + (m.items.length - (i + 1) + 1) := by omega
    conv_lhs => rw [hlen, ← List.range'_append_1]
    simp
  refine .whole ((List.range i).map .original)
    ((List.range' (i + 1) (m.items.length - (i + 1))).map .original) ?_ ?_ ?_ ?_
  · show (List.range m.items.length).map Node.original = _
    rw [hsplit, map_append, map_cons]
  · intro _ n hn
    rw [← map_append] at hn
    obtain ⟨j, hj, rfl⟩ := mem_map.mp hn
    show j ≠ i
    rcases mem_append.mp hj with hj | hj
    · have := mem_range.mp hj
      omega
    · have := (mem_range'_1.mp hj).1
      omega
  · show (m.item i).entities = d.entities
    rw [h.item_eq]
    rfl
  · intro f hf hfixed
    exact mem_own.mpr hfixed.2

/-- A node apart stands for a silent statement. -/
theorem silent_of_apart (hm : m.Valid) (h : DeclaredAt m i d e) (hs : Splittable m order i d)
    (ho : OtherFixed m order d e) (hl : Lists m part []) {n : Node}
    (hn : Apart i e.name n) : Silent e.name (part.statement m n) := by
  rcases n with j | c
  · rcases hitem : m.items[j]? with _ | item
    · have hj : m.item j = .other [] := by
        rw [Module.item, hitem]
        rfl
      simp [Part.statement, hj, Silent, SpecItem.events]
    · have hsilent := h.silent hm hs ho hitem hn
      have hj : m.item j = item := by
        rw [Module.item, hitem]
        rfl
      rcases item with d' | u
      · simp only [Part.statement, hj]
        refine hsilent.of_subset (events_subset rfl ?_)
        have := hl.subset j
        rw [hj] at this
        exact this
      · simp only [Part.statement, hj]
        exact hsilent
  · exact hn

/-- **An entity that has been moved** keeps its declaration. -/
theorem keepsDeclaration_of_moved (hm : m.Valid) (h : DeclaredAt m i d e)
    (hs : Splittable m order i d) (hl : Lists m part [])
    (hf : f ∈ d.entities) (hfixed : Fixed m order f) (hne : f ≠ e)
    (hnodes : part.nodes = front ++ .fresh (d.others f) :: back)
    (hapart : ∀ n ∈ front ++ back, Apart i e.name n) :
    KeepsDeclaration (part.nodes.map (part.statement m)) d e := by
  have ho : OtherFixed m order d e := ⟨f, hf, hfixed, hne⟩
  have hitems : part.nodes.map (part.statement m) =
      front.map (part.statement m) ++ .decl (d.others f) :: back.map (part.statement m) := by
    rw [hnodes, map_append, map_cons]
    rfl
  have hsilent : ∀ n ∈ front ++ back, Silent e.name (part.statement m n) :=
    fun n hn => silent_of_apart hm h hs ho hl (hapart n hn)
  obtain ⟨before, after, hd⟩ := append_of_mem h.mem
  obtain ⟨-, huses, hown⟩ := h.uses hm hd
  have hothers : (d.others f).entities =
      before.filter (· ≠ f) ++ e :: after.filter (· ≠ f) := by
    show d.entities.filter (· ≠ f) = _
    rw [hd, filter_append, filter_cons_of_pos]
    simpa using fun h : e = f => hne h.symm
  refine ⟨?_, d.others f, ?_, ?_, rfl, rfl⟩
  · rw [hitems]
    refine declaredBeforeUses_around ?_ ?_ hothers huses ?_ ?_
    · intro item hitem
      obtain ⟨n, hn, rfl⟩ := mem_map.mp hitem
      exact hsilent n (mem_append_left _ hn)
    · intro item hitem
      obtain ⟨n, hn, rfl⟩ := mem_map.mp hitem
      exact hsilent n (mem_append_right _ hn)
    · intro e' he'
      rcases mem_append.mp he' with he' | he'
      · exact hown e' (mem_append_left _ (mem_of_mem_filter he'))
      · exact hown e' (mem_append_right _ he')
    · intro e' he' hn
      have hnodup := h.entities_nodup hm
      rw [hd, nodup_middle] at hnodup
      have hmem' : e' ∈ before ++ after := by
        rcases mem_append.mp he' with he' | he'
        · exact mem_append_left _ (mem_of_mem_filter he')
        · exact mem_append_right _ (mem_of_mem_filter he')
      have hmem : e' ∈ d.entities := by
        rw [hd]
        rcases mem_append.mp hmem' with hmem' | hmem'
        · exact mem_append_left _ hmem'
        · exact mem_append_right _ (mem_cons_of_mem _ hmem')
      have heq := (DeclaredAt.unique hm.names_nodup ⟨h.item, hmem⟩ h hn).2.2
      rw [heq] at hmem'
      exact (nodup_cons.mp hnodup).1 hmem'
  · rw [hitems]
    exact mem_append_right _ (mem_cons_self ..)
  · rw [hothers]
    exact mem_append_right _ (mem_cons_self ..)

end GlobalConstants
