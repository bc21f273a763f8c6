/-
# Exactly when the pass picks Fortran's branches

The body of a guard is spliced as its text.  Nothing is lost where this text has no construct
on the dummy in it, and where no name in it comes to mean something else.
-/
import DaceFortran.SelectType.SelectedNames

open List

namespace SelectType

open Function

variable {Name : Type} [DecidableEq Name]

/-! ## Places -/

/-- The places of the statements that are in no other one. -/
def Denoted.spine : Denoted Name → List ℕ
  | .nil => []
  | .stmt place _ rest => place :: rest.spine
  | .construct place _ _ _ _ rest => place :: rest.spine
  | .selectType place _ _ _ _ rest => place :: rest.spine

omit [DecidableEq Name] in
@[simp] theorem Denoted.spine_append (a b : Denoted Name) :
    (a.append b).spine = a.spine ++ b.spine := by
  induction a with
  | nil => rfl
  | stmt place uses rest ih => exact congrArg (List.cons place) ih
  | construct place apart uses n parts rest _ ih => exact congrArg (List.cons place) ih
  | selectType place selector n guards bodies rest _ ih => exact congrArg (List.cons place) ih

omit [DecidableEq Name] in
/-- Two lists of statements are the same where their parts are, if the parts stand in two places. -/
theorem Denoted.append_inj {a a' b b' : Denoted Name}
    (h : ∀ p ∈ a.spine ++ a'.spine, p ∉ b.spine ++ b'.spine) :
    a.append b = a'.append b' ↔ a = a' ∧ b = b' := by
  constructor
  swap
  · rintro ⟨rfl, rfl⟩
    rfl
  intro heq
  induction a generalizing a' with
  | nil =>
    cases a' with
    | nil => exact ⟨rfl, heq⟩
    | _ =>
      have hb := congrArg Denoted.spine heq
      simp only [Denoted.append, Denoted.spine] at hb
      exact absurd (mem_append_left _ (hb ▸ mem_cons_self)) (h _ (by simp [Denoted.spine]))
  | stmt place uses rest ih =>
    cases a' with
    | stmt place' uses' rest' =>
      simp only [Denoted.append, Denoted.stmt.injEq] at heq
      obtain ⟨rfl, rfl, heq⟩ := heq
      obtain ⟨rfl, rfl⟩ := ih (fun p hp => h p (by simp only [Denoted.spine]; grind)) heq
      exact ⟨rfl, rfl⟩
    | nil =>
      have hb := congrArg Denoted.spine heq
      simp only [Denoted.append, Denoted.spine] at hb
      exact absurd (mem_append_right _ (hb ▸ mem_cons_self)) (h _ (by simp [Denoted.spine]))
    | _ => exact absurd heq nofun
  | construct place apart uses n parts rest _ ih =>
    cases a' with
    | construct place' apart' uses' n' parts' rest' =>
      simp only [Denoted.append, Denoted.construct.injEq] at heq
      obtain ⟨rfl, rfl, rfl, rfl, hparts, heq⟩ := heq
      obtain ⟨rfl, rfl⟩ := ih (fun p hp => h p (by simp only [Denoted.spine]; grind)) heq
      obtain rfl := eq_of_heq hparts
      exact ⟨rfl, rfl⟩
    | nil =>
      have hb := congrArg Denoted.spine heq
      simp only [Denoted.append, Denoted.spine] at hb
      exact absurd (mem_append_right _ (hb ▸ mem_cons_self)) (h _ (by simp [Denoted.spine]))
    | _ => exact absurd heq nofun
  | selectType place selector n guards bodies rest _ ih =>
    cases a' with
    | selectType place' selector' n' guards' bodies' rest' =>
      simp only [Denoted.append, Denoted.selectType.injEq] at heq
      obtain ⟨rfl, rfl, rfl, hguards, hbodies, heq⟩ := heq
      obtain ⟨rfl, rfl⟩ := ih (fun p hp => h p (by simp only [Denoted.spine]; grind)) heq
      obtain rfl := eq_of_heq hguards
      obtain rfl := eq_of_heq hbodies
      exact ⟨rfl, rfl⟩
    | nil =>
      have hb := congrArg Denoted.spine heq
      simp only [Denoted.append, Denoted.spine] at hb
      exact absurd (mem_append_right _ (hb ▸ mem_cons_self)) (h _ (by simp [Denoted.spine]))
    | _ => exact absurd heq nofun

omit [DecidableEq Name] in
theorem mem_places_part {n : ℕ} {parts : Fin n → Block Name} {rest : List ℕ} {j : Fin n} {p : ℕ}
    (h : p ∈ (parts j).places) :
    p ∈ (List.finRange n).flatMap (fun j => (parts j).places) ++ rest :=
  mem_append_left rest (mem_flatMap.2 ⟨j, mem_finRange j, h⟩)

theorem spine_denote (env : Name → Entity Name) (b : Block Name) :
    ∀ p ∈ (denote env b).spine, p ∈ b.places := by
  induction b with
  | nil => exact fun p hp => hp
  | stmt place names rest ih => exact fun p hp => mem_cons.2 ((mem_cons.1 hp).imp_right (ih p))
  | construct place binds names n parts rest _ ih =>
    exact fun p hp => mem_cons.2 ((mem_cons.1 hp).imp_right fun h => mem_append_right _ (ih p h))
  | selectType node assoc selector n guards bodies rest _ ih =>
    exact fun p hp => mem_cons.2 ((mem_cons.1 hp).imp_right fun h => mem_append_right _ (ih p h))

theorem spine_resolved (d : Name) (select : ∀ n, (Fin n → Guard Name) → Option (Fin n))
    (env : Name → Entity Name)
    (b : Block Name) : ∀ p ∈ (resolved d select env b).spine, p ∈ b.places := by
  induction b generalizing env with
  | nil => exact fun p hp => hp
  | stmt place names rest ih => exact fun p hp => mem_cons.2 ((mem_cons.1 hp).imp_right (ih env p))
  | construct place binds names n parts rest _ ih =>
    exact fun p hp => mem_cons.2
      ((mem_cons.1 hp).imp_right fun h => mem_append_right _ (ih env p h))
  | selectType node assoc selector n guards bodies rest ihp ih =>
    intro p hp
    rw [Block.places, mem_cons]
    rw [resolved] at hp
    split at hp
    · right
      split at hp
      · exact mem_append_right _ (ih env p hp)
      · rw [Denoted.spine_append, mem_append] at hp
        rcases hp with hp | hp
        · exact mem_places_part (ihp _ _ p hp)
        · exact mem_append_right _ (ih env p hp)
    · exact (mem_cons.1 hp).imp_right fun h => mem_append_right _ (ih env p h)

theorem Block.places_rename (s d : Name) (b : Block Name) : (b.rename s d).places = b.places := by
  induction b with
  | nil => rfl
  | stmt place names rest ih => exact congrArg (List.cons place) ih
  | construct place binds names n parts rest ihp ih =>
      simp only [Block.rename, Block.places, ihp, ih]
  | selectType node assoc selector n guards bodies rest ihp ih =>
      simp only [Block.rename, Block.places, ihp, ih]

theorem denote_append (env : Name → Entity Name) (a b : Block Name) :
    denote env (a.append b) = (denote env a).append (denote env b) := by
  induction a with
  | nil => rfl
  | stmt place names rest ih => exact congrArg _ ih
  | construct place binds names n parts rest _ ih => exact congrArg _ ih
  | selectType node assoc selector n guards bodies rest _ ih => exact congrArg _ ih

/-- The statements after the pass stand at places of the scope. -/
theorem spine_resolveOuter (tinfos : List (Name × Option Name)) (d armType : Name)
    (env : Name → Entity Name)
    (b : Block Name) : ∀ p ∈ (denote env (resolveOuter tinfos d armType b)).spine,
      p ∈ b.places := by
  induction b with
  | nil => exact fun p hp => hp
  | stmt place names rest ih => exact fun p hp => mem_cons.2 ((mem_cons.1 hp).imp_right (ih p))
  | construct place binds names n parts rest _ ih =>
    exact fun p hp => mem_cons.2 ((mem_cons.1 hp).imp_right fun h => mem_append_right _ (ih p h))
  | selectType node assoc selector n guards bodies rest _ ih =>
    intro p hp
    rw [Block.places, mem_cons]
    rw [resolveOuter] at hp
    split at hp
    · right
      rw [denote_append, Denoted.spine_append, mem_append] at hp
      rcases hp with hp | hp
      · cases hj : chooseGuard tinfos armType guards with
        | none =>
          rw [spliced, hj] at hp
          exact absurd hp not_mem_nil
        | some j =>
          rw [denote_spliced env hj] at hp
          exact mem_places_part (Block.places_rename _ _ (bodies j) ▸ spine_denote env _ p hp)
      · exact mem_append_right _ (ih p hp)
    · exact (mem_cons.1 hp).imp_right fun h => mem_append_right _ (ih p h)

/-! ## The text of a body -/

/-- The constructs that declare the names of a scope are none of these. -/
def Below (env : Name → Entity Name) (places : List ℕ) : Prop :=
  ∀ x p k, env x = .inner p k → p ∉ places

omit [DecidableEq Name] in
theorem Below.mono {env : Name → Entity Name} {ps qs : List ℕ} (h : Below env ps)
    (hsub : ∀ p ∈ qs, p ∈ ps) :
    Below env qs := fun x p k hx hp => h x p k hx (hsub p hp)

theorem Below.inside {env : Name → Entity Name} {ps : List ℕ} (h : Below env ps) {place : ℕ}
    (hplace : place ∉ ps)
    (binds : List Name) : Below (bind env place binds) ps := by
  intro x p k hx
  unfold bind at hx
  split at hx
  · cases hx
    exact hplace
  · exact h x p k hx

omit [DecidableEq Name] in
theorem eq_of_mem_associates {assoc : Option Name} {selector : Selector Name} {x y : Name}
    (hx : x ∈ associates assoc selector) (hy : y ∈ associates assoc selector) : x = y := by
  cases assoc with
  | some s => exact (mem_singleton.1 hx).trans (mem_singleton.1 hy).symm
  | none =>
    cases selector with
    | name z => exact (mem_singleton.1 hx).trans (mem_singleton.1 hy).symm
    | expr names => exact absurd hx not_mem_nil

omit [DecidableEq Name] in
/-- The places of a construct, one of its parts and what is behind it. -/
theorem nodup_places {place n : ℕ} {parts : Fin n → Block Name} {rest : Block Name}
    (h : (place :: ((List.finRange n).flatMap (fun j => (parts j).places) ++ rest.places)).Nodup) :
    (∀ j, place ∉ (parts j).places) ∧ place ∉ rest.places ∧ (∀ j, (parts j).places.Nodup) ∧
      rest.places.Nodup ∧
      ∀ j, ∀ p ∈ (parts j).places, p ∉ rest.places := by
  obtain ⟨hplace, h⟩ := nodup_cons.1 h
  obtain ⟨hparts, hrest, -⟩ := nodup_append.1 h
  refine ⟨fun j hj => hplace (mem_places_part hj), fun hr => hplace (mem_append_right _ hr),
    fun j => hparts.sublist (isInfix_flatMap (fun j => (parts j).places) j).sublist, hrest,
      fun j p hp hr => ?_⟩
  exact disjoint_of_nodup_append h (mem_flatMap.2 ⟨j, mem_finRange j, hp⟩) hr

/-- **The text of a body keeps its meaning** exactly where it is clear. -/
theorem denote_rename_iff {s d : Name} {select : ∀ n, (Fin n → Guard Name) → Option (Fin n)}
    {b : Block Name}
    {m : Option Name} {env env' : Name → Entity Name} (hf : Follows s d m env env')
    (hwf : WellFormed b)
    (hnodup : b.places.Nodup) (hbelow : Below env b.places) :
    denote env' (b.rename s d) = resolved d select env b ↔ ClearBody s d m b := by
  induction b generalizing m env env' with
  | nil => exact iff_of_true rfl trivial
  | stmt place names rest ih =>
    rw [Block.rename, denote, resolved, ClearBody, Denoted.stmt.injEq, hf.uses_iff,
      ih hf hwf (nodup_cons.1 hnodup).2 (hbelow.mono fun p hp => mem_cons_of_mem place hp)]
    exact and_iff_right rfl
  | construct place binds names n parts rest ihp ih =>
    obtain ⟨hbinds, hwfp, hwfr⟩ := hwf
    obtain ⟨hnp, -, hpnodup, hrnodup, -⟩ := nodup_places hnodup
    have hrest := ih hf hwfr hrnodup
      (hbelow.mono fun p hp => mem_cons_of_mem _ (mem_append_right _ hp))
    have hpart : (s ∈ binds → d ∈ binds → s = d) → ∀ j,
        denote (bind env' place (binds.map (renamed s d))) ((parts j).rename s d) =
          resolved d select (bind env place binds) (parts j) ↔
            ClearBody s d (lastBound s d m binds) (parts j) := by
      intro hb j
      refine ihp j (hf.inside hb fun x k hx => hbelow x place k hx mem_cons_self)
        (hwfp j) (hpnodup j) ?_
      exact (hbelow.mono fun p hp => mem_cons_of_mem _ (mem_places_part hp)).inside (hnp j) binds
    have hapart : decide (binds.map (renamed s d)).Nodup = decide binds.Nodup ↔
        (s ∈ binds → d ∈ binds → s = d) := by
      rw [decide_eq_true hbinds, decide_eq_true_iff, nodup_map_renamed hbinds]
    rw [Block.rename, denote, resolved, ClearBody, Denoted.construct.injEq,
      hf.uses_iff, hapart, hrest]
    constructor
    · rintro ⟨-, hb, huses, -, hparts, hrest⟩
      exact ⟨hb, huses, fun j => (hpart hb j).1 (congrFun (eq_of_heq hparts) j), hrest⟩
    · rintro ⟨hb, huses, hparts, hrest⟩
      exact ⟨rfl, hb, huses, rfl, heq_of_eq (funext fun j => (hpart hb j).2 (hparts j)), hrest⟩
  | selectType node assoc selector n guards bodies rest ihp ih =>
    obtain ⟨-, -, hwfp, hwfr⟩ := hwf
    obtain ⟨hnp, hnr, hpnodup, hrnodup, -⟩ := nodup_places hnodup
    have hselector := hf.selector_iff selector
    rw [Block.rename, denote, resolved, ClearBody]
    by_cases hon : OnDummy env d selector
    · -- the construct is still there, and should not be
      rw [if_pos hon]
      refine iff_of_false (fun heq => ?_) fun h => (hselector.2 h.1).2 hon
      have hmem : node.place ∈ (Denoted.selectType node.place
        ((selector.rename s d).use env') n guards
          (fun j => denote (bind env' node.place
            (associates (assoc.map (renamed s d)) (selector.rename s d)))
            ((bodies j).rename s d)) (denote env' (rest.rename s d))).spine := mem_cons_self
      rw [heq] at hmem
      split at hmem
      · exact hnr (spine_resolved _ _ _ _ _ hmem)
      · rw [Denoted.spine_append, mem_append] at hmem
        rcases hmem with hmem | hmem
        · exact hnp _ (spine_resolved _ _ _ _ _ hmem)
        · exact hnr (spine_resolved _ _ _ _ _ hmem)
    · have hrest := ih hf hwfr hrnodup
        (hbelow.mono fun p hp => mem_cons_of_mem _ (mem_append_right _ hp))
      have hpart : ∀ j, denote (bind env' node.place
        ((associates assoc selector).map (renamed s d)))
          ((bodies j).rename s d) =
            resolved d select (bind env node.place (associates assoc selector)) (bodies j) ↔
            ClearBody s d (lastBound s d m (associates assoc selector)) (bodies j) := by
        intro j
        refine ihp j (hf.inside (fun hs hd => eq_of_mem_associates hs hd)
          fun x k hx => hbelow x node.place k hx mem_cons_self) (hwfp j) (hpnodup j) ?_
        exact (hbelow.mono fun p hp => mem_cons_of_mem _ (mem_places_part hp)).inside (hnp j) _
      rw [if_neg hon, Denoted.selectType.injEq, associates_rename, ← hselector, hrest]
      constructor
      · rintro ⟨-, huse, -, -, hbodies, hrest⟩
        exact ⟨⟨huse, hon⟩, fun j => (hpart j).1 (congrFun (eq_of_heq hbodies) j), hrest⟩
      · rintro ⟨huse, hbodies, hrest⟩
        exact ⟨rfl, huse.1, rfl, HEq.rfl,
          heq_of_eq (funext fun j => (hpart j).2 (hbodies j)), hrest⟩

/-! ## The pass -/

section

variable {d armType : Name} {env : Name → Entity Name} {rebound : Bool}

/-- The body of a construct on the dummy and the scope that it is spliced into. -/
theorem follows_withAssociate (henv : ∀ x, env x = .outer d ↔ x = d) (assoc : Option Name) :
    Follows (assoc.getD d) d none (withAssociate env d assoc) env := by
  cases assoc with
  | none =>
    exact ⟨fun x _ hx => ⟨rfl, fun h => hx ((henv x).1 h)⟩, rfl,
      fun _ => ⟨(henv d).2 rfl, (henv d).2 rfl⟩, by simp⟩
  | some s =>
    have hs : withAssociate env d (some s) s = .outer d := update_self s _ env
    have hother : ∀ x, x ≠ s → withAssociate env d (some s) x = env x :=
      fun x hx => update_of_ne hx _ env
    refine ⟨fun x hx hxd => ⟨(hother x hx).symm, fun h => hxd ((henv x).1 (hother x hx ▸ h))⟩, ?_,
      fun _ => ⟨hs, ?_⟩,
      by simp⟩
    · exact ((henv d).2 rfl).trans hs.symm
    · by_cases hds : d = s
      · exact hds ▸ hs
      · exact (hother d hds).trans ((henv d).2 rfl)

/-- Inside of a construct, a name is the dummy if it is the dummy's and nothing has declared it. -/
theorem bind_eq_outer_iff (henv : ∀ x, env x = .outer d ↔ x = d ∧ rebound = false) (place : ℕ)
    (binds : List Name)
    (x : Name) : bind env place binds x = .outer d ↔
      x = d ∧ (rebound || decide (d ∈ binds)) = false := by
  rw [Bool.or_eq_false_iff, decide_eq_false_iff_not]
  by_cases hx : x ∈ binds
  · refine iff_of_false (bind_ne_outer hx) ?_
    rintro ⟨rfl, -, hd⟩
    exact hd hx
  · rw [bind_of_notMem hx, henv]
    refine ⟨fun h => ⟨h.1, h.2, h.1 ▸ hx⟩, fun h => ⟨h.1, h.2.1⟩⟩

/-- **One scope**: what the pass makes of it is what it should be, exactly where the scope is
clear. -/
theorem resolveOuter_iff (tinfos : List (Name × Option Name))
    {select : ∀ n, (Fin n → Guard Name) → Option (Fin n)}
    (hselect : ∀ n (guards : Fin n → Guard Name), Injective guards →
      select n guards = chooseGuard tinfos armType guards)
    {b : Block Name} (henv : ∀ x, env x = .outer d ↔ x = d ∧ rebound = false) (hwf : WellFormed b)
    (hnodup : b.places.Nodup) (hbelow : Below env b.places) :
    denote env (resolveOuter tinfos d armType b) = resolved d select env b ↔
      ClearScope tinfos d armType rebound b := by
  induction b generalizing env rebound with
  | nil => exact iff_of_true rfl trivial
  | stmt place names rest ih =>
    rw [resolveOuter, denote, resolved, ClearScope, Denoted.stmt.injEq,
      ih henv hwf (nodup_cons.1 hnodup).2 (hbelow.mono fun p hp => mem_cons_of_mem place hp)]
    exact (and_iff_right rfl).trans (and_iff_right rfl)
  | construct place binds names n parts rest ihp ih =>
    obtain ⟨-, hwfp, hwfr⟩ := hwf
    obtain ⟨hnp, -, hpnodup, hrnodup, -⟩ := nodup_places hnodup
    have hrest := ih henv hwfr hrnodup
      (hbelow.mono fun p hp => mem_cons_of_mem _ (mem_append_right _ hp))
    have hpart := fun j => ihp j (bind_eq_outer_iff henv place binds) (hwfp j) (hpnodup j)
      ((hbelow.mono fun p hp => mem_cons_of_mem _ (mem_places_part hp)).inside (hnp j) binds)
    rw [resolveOuter, denote, resolved, ClearScope, Denoted.construct.injEq, hrest]
    constructor
    · rintro ⟨-, -, -, -, hparts, hrest⟩
      exact ⟨fun j => (hpart j).1 (congrFun (eq_of_heq hparts) j), hrest⟩
    · rintro ⟨hparts, hrest⟩
      exact ⟨rfl, rfl, rfl, rfl, heq_of_eq (funext fun j => (hpart j).2 (hparts j)), hrest⟩
  | selectType node assoc selector n guards bodies rest ihp ih =>
    obtain ⟨hnode, hinj, hwfp, hwfr⟩ := hwf
    obtain ⟨hnp, hnr, hpnodup, hrnodup, hapart⟩ := nodup_places hnodup
    have hrest := ih henv hwfr hrnodup
      (hbelow.mono fun p hp => mem_cons_of_mem _ (mem_append_right _ hp))
    rw [resolveOuter, resolved, ClearScope]
    by_cases hsel : selector = .name d
    · subst hsel
      rw [if_pos ⟨hnode, rfl⟩, if_pos rfl, denote_append]
      cases rebound with
      | true =>
        -- the name is that of another entity, and its construct is spliced all the same
        have hon : ¬ OnDummy env d (.name d) := fun h => absurd ((henv d).1 h).2 (by simp)
        rw [if_neg hon]
        refine iff_of_false (fun heq => ?_) fun h => absurd h.1.1 (by simp)
        have hmem : node.place ∈ (Denoted.selectType node.place
          (Selector.use env (.name d)) n guards
            (fun j => resolved d select (bind env node.place (associates assoc (.name d)))
              (bodies j))
              (resolved d select env rest)).spine := mem_cons_self
        rw [← heq, Denoted.spine_append, mem_append] at hmem
        rcases hmem with hmem | hmem
        · cases hj : chooseGuard tinfos armType guards with
          | none =>
            rw [spliced, hj] at hmem
            exact absurd hmem not_mem_nil
          | some j =>
            rw [denote_spliced env hj] at hmem
            exact hnp j (Block.places_rename _ _ (bodies j) ▸ spine_denote env _ _ hmem)
        · exact hnr (spine_resolveOuter _ _ _ _ _ _ hmem)
      | false =>
        have henv' : ∀ x, env x = .outer d ↔ x = d := fun x => (henv x).trans (and_iff_left rfl)
        have hon : OnDummy env d (.name d) := (henv' d).2 rfl
        rw [if_pos hon, hselect n guards hinj]
        cases hj : chooseGuard tinfos armType guards with
        | none =>
          rw [spliced, hj]
          refine hrest.trans ⟨fun h => ⟨⟨rfl, by simp⟩, h⟩, fun h => h.2⟩
        | some j =>
          have hbelow' : Below (withAssociate env d assoc) (bodies j).places := by
            intro x p k hx
            refine hbelow.mono (fun q hq => mem_cons_of_mem _ (mem_places_part hq)) x p k ?_
            cases assoc with
            | none => exact hx
            | some s =>
              by_cases hxs : x = s
              · rw [hxs, withAssociate, update_self] at hx
                cases hx
              · rwa [withAssociate, update_of_ne hxs] at hx
          have hbody : denote env ((bodies j).rename (assoc.getD d) d) =
              resolved d select (withAssociate env d assoc) (bodies j) ↔
                ClearBody (assoc.getD d) d none (bodies j) :=
            denote_rename_iff (follows_withAssociate henv' assoc) (hwfp j) (hpnodup j) hbelow'
          have hplaces : ∀ p ∈ (denote env ((bodies j).rename (assoc.getD d) d)).spine ++
              (resolved d select (withAssociate env d assoc) (bodies j)).spine,
                p ∉ (denote env (resolveOuter tinfos d armType rest)).spine ++
                  (resolved d select env rest).spine := by
            intro p hp hp'
            have hin : p ∈ (bodies j).places := by
              rcases mem_append.1 hp with hp | hp
              · exact Block.places_rename _ _ (bodies j) ▸ spine_denote env _ p hp
              · exact spine_resolved _ _ _ _ p hp
            refine hapart j p hin ?_
            rcases mem_append.1 hp' with hp' | hp'
            · exact spine_resolveOuter _ _ _ _ _ p hp'
            · exact spine_resolved _ _ _ _ p hp'
          rw [denote_spliced env hj]
          simp only
          rw [Denoted.append_inj hplaces, hbody, hrest]
          constructor
          · rintro ⟨hclear, hrest⟩
            refine ⟨⟨trivial, ?_⟩, hrest⟩
            rintro i ⟨⟩
            exact hclear
          · rintro ⟨⟨-, hclear⟩, hrest⟩
            exact ⟨hclear j rfl, hrest⟩
    · have hon : ¬ OnDummy env d selector := by
        cases selector with
        | name x => exact fun h => hsel (congrArg Selector.name ((henv x).1 h).1)
        | expr names => exact id
      have hpart := fun j => ihp j (bind_eq_outer_iff henv node.place (associates assoc selector))
        (hwfp j) (hpnodup j)
        ((hbelow.mono fun p hp => mem_cons_of_mem _ (mem_places_part hp)).inside (hnp j) _)
      rw [if_neg fun h => hsel h.2, if_neg hon, if_neg hsel, denote,
        Denoted.selectType.injEq, hrest]
      constructor
      · rintro ⟨-, -, -, -, hbodies, hrest⟩
        exact ⟨fun j => (hpart j).1 (congrFun (eq_of_heq hbodies) j), hrest⟩
      · rintro ⟨hbodies, hrest⟩
        exact ⟨rfl, rfl, rfl, HEq.rfl, heq_of_eq (funext fun j => (hpart j).2 (hbodies j)), hrest⟩

end

omit [DecidableEq Name] in
theorem NoneLeft.append {d : Name} {a b : Denoted Name} (ha : NoneLeft d a) (hb : NoneLeft d b) :
    NoneLeft d (a.append b) := by
  induction a with
  | nil => exact hb
  | stmt place uses rest ih => exact ih ha
  | construct place apart uses n parts rest _ ih => exact ⟨ha.1, ih ha.2⟩
  | selectType place selector n guards bodies rest _ ih => exact ⟨ha.1, ha.2.1, ih ha.2.2⟩

theorem noneLeft_resolved (d : Name) (select : ∀ n, (Fin n → Guard Name) → Option (Fin n))
    (env : Name → Entity Name)
    (b : Block Name) : NoneLeft d (resolved d select env b) := by
  induction b generalizing env with
  | nil => trivial
  | stmt place names rest ih => exact ih env
  | construct place binds names n parts rest ihp ih => exact ⟨fun j => ihp j _, ih env⟩
  | selectType node assoc selector n guards bodies rest ihp ih =>
    rw [resolved]
    split
    · split
      · exact ih env
      · exact (ihp _ _).append (ih env)
    · rename_i hon
      refine ⟨?_, fun j => ihp j _, ih env⟩
      cases selector with
      | name x =>
        intro heq
        exact hon (SelectorUse.entity.inj heq)
      | expr names => exact nofun

/-- `SELECT TYPE (d)`, in whose `CLASS DEFAULT` there is `SELECT TYPE (d)` with one `TYPE IS` and a
statement behind it. -/
def nestedSelect : Scope ℕ where
  block := .selectType ⟨0, false⟩ none (.name 0) 1 (fun _ => .classDefault)
    (fun _ => .selectType ⟨1, false⟩ none (.name 0) 1 (fun _ => .typeIs 1)
      (fun _ => .stmt 2 [] .nil) .nil) .nil
  places_nodup := by decide
  wf := ⟨rfl, fun i j _ => Subsingleton.elim i j,
    fun _ => ⟨rfl, fun i j _ => Subsingleton.elim i j, fun _ => trivial,
    trivial⟩, trivial⟩

/-- One type that extends none. -/
def oneType : TypeTable ℕ where
  tinfos := [(1, none)]
  acyclic := by
    intro k t h
    have hp : parent [(1, (none : Option ℕ))] t = none := by
      by_cases ht : t = 1
      · rw [ht]
        rfl
      · have hl : List.lookup t [(1, (none : Option ℕ))] = none := by
          rw [List.lookup_cons, beq_false_of_ne ht]
          rfl
        rw [parent, hl]
        rfl
    rw [ancestor, hp] at h
    exact absurd h nofun

end SelectType
