/-
# Names after the merge

The merged module keeps names apart and references as they were where the two modules share only
variables and named constants, the suffixed names are new, imports do not clash, and a procedure of
the arm's module has a shared name only as one that it declares itself by a type declaration.  A
selector or keyword must get a suffix exactly where its component or dummy argument gets one.
-/
import DaceFortran.Lib.AssocLists
import DaceFortran.ArmModules.ConsolidateArm

open List

namespace ArmModules

/-! ## Renaming -/

section

variable {collisions typed : List Name} {armName x : Name}

theorem renameText_of_notMem (h : x ∉ collisions) : renameText collisions armName typed x = x := by
  unfold renameText
  induction collisions with
  | nil => rfl
  | cons old collisions ih =>
    rw [mem_cons, not_or] at h
    rw [foldl_cons, if_neg fun hx => h.1 hx.1]
    exact ih h.2

theorem renameText_of_typed (h : x ∈ typed) : renameText collisions armName typed x = x := by
  unfold renameText
  induction collisions with
  | nil => rfl
  | cons old collisions ih =>
    rw [foldl_cons, if_neg fun hx => hx.2 (hx.1 ▸ h)]
    exact ih

theorem renameText_of_mem (hx : x ∈ collisions) (htyped : x ∉ typed)
    (hnew : suffixed armName x ∉ collisions) :
    renameText collisions armName typed x = suffixed armName x := by
  unfold renameText
  induction collisions with
  | nil => exact absurd hx not_mem_nil
  | cons old collisions ih =>
    rw [mem_cons, not_or] at hnew
    rw [foldl_cons]
    by_cases hold : x = old
    · subst hold
      rw [if_pos ⟨rfl, htyped⟩]
      have hrest : renameText collisions armName typed (suffixed armName x) = suffixed armName x :=
        renameText_of_notMem hnew.2
      exact hrest
    · rw [if_neg fun h => hold h.1]
      exact ih ((mem_cons.1 hx).resolve_left hold) hnew.2

theorem suffixed_injective (armName : Name) : Function.Injective (suffixed armName) := by
  intro x y h
  unfold suffixed at h
  rw [append_assoc, append_assoc] at h
  exact append_cancel_right h

theorem suffixed_ne (armName x : Name) : suffixed armName x ≠ x := by
  intro h
  have hlen := congrArg List.length h
  rw [suffixed, length_append, length_append] at hlen
  simp only [length_cons, length_nil] at hlen
  omega

/-- A name that gets a suffix ends with it, or as the name with the suffix ends. -/
theorem renameText_suffixed (hnodup : collisions.Nodup) (hx : x ∈ collisions) :
    renameText collisions armName [] x = suffixed armName x ∨
      renameText collisions armName [] x = renameText collisions armName
      [] (suffixed armName x) := by
  have hstep : ∀ (old t : Name) (rest : List Name), renameText (old :: rest) armName [] t =
      renameText rest armName [] (if t = old then suffixed armName old else t) := by
    intro old t rest
    simp [renameText]
  induction collisions with
  | nil => exact absurd hx not_mem_nil
  | cons old collisions ih =>
    rw [nodup_cons] at hnodup
    rw [hstep, hstep]
    by_cases hold : x = old
    · right
      rw [if_pos hold, ← hold, if_neg (suffixed_ne armName x)]
    · rw [if_neg hold]
      have h := ih hnodup.2 ((mem_cons.1 hx).resolve_left hold)
      by_cases hnew : suffixed armName x = old
      · left
        rcases h with h | h
        · exact h
        · rw [h, renameText_of_notMem (hnew ▸ hnodup.1)]
      · rw [if_neg hnew]
        exact h

theorem renameImport_nil (i : Import) : renameImport [] armName typed i = i := by
  unfold renameImport
  split <;> rfl

theorem renameImport_of_notMem {i : Import} (hname : i.name ∉ collisions)
    (hsource : i.listed → i.source ∉ collisions) :
    renameImport collisions armName typed i = i := by
  unfold renameImport
  split
  · rename_i hlisted
    rw [renameText_of_notMem hname, renameText_of_notMem (hsource hlisted)]
  · rfl

end

/-! ## Looking up a name -/

variable {imports : List Import}

theorem of_findImport {x : Name} {i : Import} (h : findImport imports x = some i) :
    i ∈ imports ∧ i.name = x := ⟨mem_of_find?_eq_some h, by simpa using List.find?_some h⟩

theorem findImport_eq_none {x : Name} :
    findImport imports x = none ↔ ∀ i ∈ imports, i.name ≠ x := by
  simp [findImport]

/-- A name of a procedure: declared there or imported there. -/
def View.binds (v : View) (x : Name) : Prop :=
  x ∈ v.names.map Prod.fst ∨ ∃ i ∈ v.imports, i.name = x

/-- **Two look-ups with the same result**: the procedures have the names alike, and an import that
was dropped gave what the module has now. -/
theorem resolve_congr {exports : Place → Name → Option Entity} {scope scope' : Name → Option Entity}
    {x x' : Name}
    {v v' : Frame → View} (frames : List Frame) : ∀ {d : ℕ},
    (∀ f ∈ frames, (v' f).names.lookup x' = (v f).names.lookup x) →
    (∀ pre f post, frames = pre ++ f :: post → match findImport (v f).imports x with
      | none => findImport (v' f).imports x' = none
      | some i => (∃ j, findImport (v' f).imports x' = some j ∧
          exports j.via j.source = exports i.via i.source) ∨
          findImport (v' f).imports x' = none ∧ (∀ g ∈ post, ¬ (v' g).binds x') ∧
            scope' x' = exports i.via i.source) →
    ((∀ f ∈ frames, ¬ (v f).binds x) → scope' x' = scope x) →
    resolve exports scope' x' d (frames.map v') = resolve exports scope x d (frames.map v) := by
  -- where nothing binds the name it is the module's
  have hunbound : ∀ (frames : List Frame) {d : ℕ}, (∀ g ∈ frames, ¬ (v' g).binds x') →
      resolve exports scope' x' d (frames.map v') = (scope' x').map .global := by
    intro frames
    induction frames with
    | nil => exact fun _ => rfl
    | cons g frames ih =>
      intro d h
      have hg := h g mem_cons_self
      have hnames : (v' g).names.lookup x' = none :=
        AssocLists.lookup_eq_none.2 fun hmem => hg (.inl hmem)
      have himports : findImport (v' g).imports x' = none :=
        findImport_eq_none.2 fun i hi hname => hg (.inr ⟨i, hi, hname⟩)
      rw [map_cons, resolve]
      simp only [hnames, himports]
      exact ih fun k hk => h k (mem_cons_of_mem g hk)
  induction frames with
  | nil =>
    intro d _ _ hscope
    rw [map_nil, map_nil, resolve, resolve, hscope fun f hf => absurd hf not_mem_nil]
  | cons f frames ih =>
    intro d hnames himports hscope
    rw [map_cons, map_cons, resolve, resolve, hnames f mem_cons_self]
    cases hlookup : (v f).names.lookup x with
    | some y => rfl
    | none =>
      have hf := himports [] f frames rfl
      cases hfind : findImport (v f).imports x with
      | some i =>
        rw [hfind] at hf
        rcases hf with ⟨j, hj, heq⟩ | ⟨hnone, hpost, heq⟩
        · simp only [hj, heq]
        · simp only [hnone]
          rw [hunbound frames hpost, heq]
      | none =>
        rw [hfind] at hf
        simp only at hf
        simp only [hf]
        refine ih (fun g hg => hnames g (mem_cons_of_mem f hg))
          (fun pre g post heq => ?_) fun h => ?_
        · exact himports (f :: pre) g post (by rw [heq]; rfl)
        · refine hscope fun g hg => ?_
          rcases mem_cons.1 hg with rfl | hg
          · rintro (hmem | ⟨i, hi, hname⟩)
            · exact AssocLists.lookup_eq_none.1 hlookup hmem
            · exact findImport_eq_none.1 hfind i hi hname
          · exact h g hg

/-- No procedure around the reference has its name. -/
def Ref.Unbound (r : Ref) : Prop := ∀ f ∈ r.frames, ¬ f.view.binds r.name

namespace Program

variable (P : Program)

/-! ## The condition -/

/-- A dropped import: it gives the entity its own name, which the other module declares or has from
a third one, and the name is not one that gets a suffix. -/
def OwnName (i : Import) : Prop := i.name = i.source ∧ i.name ∉ P.collisions ∧
  ((∃ M place, (M, place) ∈ [(P.base, Place.base), (P.arm, Place.arm)] ∧ i.via = place ∧
    (i.source ∈ M.declared ∨ i.source ∉ M.declared ∧ ∃ j, findImport M.imports i.source = some j ∧
      j.kept)))

/-- The imports of a procedure: those that are dropped are not hidden by an outer procedure. -/
def FramesPlain (frames : List Frame) : Prop := ∀ pre f post, frames = pre ++ f :: post →
  ∀ i ∈ f.imports, i.kept = false →
  P.OwnName i ∧ ∀ g ∈ post, ¬ g.view.binds i.name

/-- The condition on the declared names: both modules declare only variables and named constants,
and the names with a suffix are new. -/
structure DeclaredPlain : Prop where
  common : ∀ x ∈ P.base.declared, x ∈ P.arm.declared → x ∈ P.collisions
  fresh : ∀ x ∈ P.collisions, suffixed P.armName x ∉ P.base.declared ∧
    suffixed P.armName x ∉ P.arm.declared

/-- A component or dummy argument that gets a suffix. -/
def Suffixed (l : Label) : Prop :=
  l.name ∈ P.collisions ∧ ∃ typed, l.typed = some typed ∧ l.name ∉ typed

/-- The condition on components, dummy arguments, selectors and keywords: names with a suffix are
new, and a selector or keyword gets one exactly where its component or dummy argument does. -/
structure SelectorsPlain : Prop where
  owners : ∀ o ∈ P.owners, ∀ l ∈ o, ∀ k ∈ o, P.Suffixed l → k.name ≠ suffixed P.armName l.name
  selectorsBase : ∀ s ∈ P.base.selectors, ∀ l ∈ s.owner, l.name = s.name → ¬ P.Suffixed l
  selectorsArm : ∀ s ∈ P.arm.selectors, ∀ l ∈ s.owner, l.name = s.name →
    (P.Suffixed l ↔ s.name ∈ P.collisions ∧ s.name ∉ s.typed)

/-- The condition on the names of the two modules. -/
structure NamesPlain : Prop extends DeclaredPlain P, SelectorsPlain P where
  new : ∀ x ∈ P.collisions, (∀ i ∈ P.base.imports ++ P.arm.imports, i.name ≠ suffixed P.armName x) ∧
    (∀ r ∈ P.base.refs ++ P.arm.refs, r.Unbound → r.name ≠ suffixed P.armName x) ∧
    ∀ r ∈ P.arm.refs, r.name = x → ∀ f ∈ r.frames, ¬ f.view.binds (suffixed P.armName x)
  importsBase : ∀ i ∈ P.base.imports, i.kept → i.name ∉ P.arm.declared
  importsArm : ∀ i ∈ P.arm.imports, i.kept → i.name ∉ P.base.declared
  importsBoth : ∀ i ∈ P.base.imports, ∀ j ∈ P.arm.imports, i.kept → j.kept → i.name = j.name →
    P.exports i.via i.source = P.exports j.via j.source
  dropped : ∀ i ∈ P.base.imports ++ P.arm.imports, i.kept = false → P.OwnName i
  listed : ∀ i ∈ P.arm.imports, i.listed → i.source ∉ P.collisions
  frames : ∀ r ∈ P.base.refs ++ P.arm.refs, P.FramesPlain r.frames
  framesArm : ∀ r ∈ P.arm.refs, ∀ f ∈ r.frames, (∀ i ∈ f.imports, i.name ∉ P.collisions ∧
    (i.listed → i.source ∉ P.collisions)) ∧ ∀ p ∈ f.inner, p.1 ∉ P.collisions
  shadowing : ∀ r ∈ P.arm.refs, r.name ∈ P.collisions → r.name ∈ r.typed ∨
    ∀ f ∈ r.frames, r.name ∉ f.typed
  unresolvedBase : ∀ r ∈ P.base.refs, r.Unbound → P.scope .base P.base r.name = none →
    r.name ∉ P.arm.declared ∧ ∀ i ∈ P.arm.imports, i.kept → i.name ≠ r.name
  unresolvedArm : ∀ r ∈ P.arm.refs, r.Unbound → P.scope .arm P.arm r.name = none →
    r.name ∉ P.base.declared ∧ ∀ i ∈ P.base.imports, i.kept → i.name ≠ r.name

/-- The modules are Fortran's: a name is declared once and not imported too, imports of one name are
of one entity that exists, the two modules export their names, and a selector or keyword names one
component or dummy argument. -/
structure Valid : Prop where
  nodup : P.base.declared.Nodup ∧ P.arm.declared.Nodup
  imports : ∀ M ∈ [P.base, P.arm], ∀ i ∈ M.imports, i.name ∉ M.declared ∧
    (P.exports i.via i.source).isSome ∧
    ∀ j ∈ M.imports, i.name = j.name → P.exports i.via i.source = P.exports j.via j.source
  exports : ∀ x, P.exports .base x = P.scope .base P.base x ∧
    P.exports .arm x = P.scope .arm P.arm x
  frames : ∀ r ∈ P.base.refs ++ P.arm.refs, ∀ f ∈ r.frames, ∀ i ∈ f.imports, ∀ j ∈ f.imports,
    i.name = j.name →
    P.exports i.via i.source = P.exports j.via j.source
  owners : ∀ o ∈ P.owners, (o.map Label.name).Nodup
  selectors : ∀ s ∈ P.base.selectors ++ P.arm.selectors, s.owner ∈ P.owners ∧
    s.name ∈ s.owner.map Label.name

variable {P : Program}

variable {x : Name} {M : Module}

theorem mem_collisions : x ∈ P.collisions ↔ x ∈ valueNames P.arm.items ∧
    x ∈ valueNames P.base.items := by
  rw [collisions, mem_sorted, mem_filter, decide_eq_true_eq]

theorem valueNames_declared (h : x ∈ valueNames M.items) : x ∈ M.declared := by
  obtain ⟨z, hz, -, rfl⟩ := mem_valueNames.1 h
  exact mem_append_left _ (mem_map_of_mem hz)

theorem rename_of_mem (hp : P.DeclaredPlain) {typed : List Name} (hx : x ∈ P.collisions)
    (htyped : x ∉ typed) :
    P.rename typed x = suffixed P.armName x :=
  renameText_of_mem hx htyped fun h => (hp.fresh x hx).2
    (valueNames_declared (mem_collisions.1 h).1)

/-! ## The names of the merged module -/

theorem collisions_nodup : P.collisions.Nodup := (mergeSort_perm _ _).nodup_iff.2 (nodup_dedup _)

theorem mergedDeclared_names :
    P.mergedDeclared.map Prod.fst = P.base.declared ++ P.arm.declared.map (P.rename []) := by
  unfold mergedDeclared
  rw [map_append, map_map, map_map]
  congr 1
  exact map_id _

/-- The renamed names of the arm's module are apart and are no names of the base's. -/
theorem mergedDeclared_nodup (hv : P.Valid) (hp : P.NamesPlain) :
    (P.mergedDeclared.map Prod.fst).Nodup := by
  rw [mergedDeclared_names]
  refine nodup_append.2 ⟨hv.nodup.1, (nodup_map_iff_inj_on hv.nodup.2).2 fun x hx y hy h => ?_,
    fun x hx y hy h => ?_⟩
  · by_cases hxc : x ∈ P.collisions <;> by_cases hyc : y ∈ P.collisions
    · rw [rename_of_mem hp.toDeclaredPlain hxc not_mem_nil,
        rename_of_mem hp.toDeclaredPlain hyc not_mem_nil] at h
      exact suffixed_injective _ h
    · rw [rename_of_mem hp.toDeclaredPlain hxc not_mem_nil, rename, renameText_of_notMem hyc] at h
      exact absurd hy (h ▸ (hp.fresh x hxc).2)
    · rw [rename_of_mem hp.toDeclaredPlain hyc not_mem_nil, rename, renameText_of_notMem hxc] at h
      exact absurd hx (h ▸ (hp.fresh y hyc).2)
    · rwa [rename, rename, renameText_of_notMem hxc, renameText_of_notMem hyc] at h
  · obtain ⟨z, hz, rfl⟩ := mem_map.1 hy
    by_cases hzc : z ∈ P.collisions
    · rw [rename_of_mem hp.toDeclaredPlain hzc not_mem_nil] at h
      exact (hp.fresh z hzc).1 (h ▸ hx)
    · rw [rename, renameText_of_notMem hzc] at h
      exact hzc (hp.common z (h ▸ hx) hz)

/-- Where the names of the merged module are apart the declared names are as they have to be. -/
theorem declaredPlain_of_nodup (h : (P.mergedDeclared.map Prod.fst).Nodup) : P.DeclaredPlain := by
  rw [mergedDeclared_names, nodup_append] at h
  obtain ⟨-, harm, hapart⟩ := h
  have hinj : ∀ {x y}, x ∈ P.arm.declared → y ∈ P.arm.declared →
      P.rename [] x = P.rename [] y → x = y :=
    fun hx hy => inj_on_of_nodup_map harm hx hy
  refine ⟨fun x hbase hx => ?_, fun x hx => ?_⟩
  · by_contra hc
    refine hapart x hbase x (mem_map.2 ⟨x, hx, ?_⟩) rfl
    exact renameText_of_notMem hc
  · have hxarm : x ∈ P.arm.declared := valueNames_declared (mem_collisions.1 hx).1
    have hne := suffixed_ne P.armName x
    have hrename : ∀ hxr : P.rename [] x = suffixed P.armName x,
        suffixed P.armName x ∉ P.base.declared :=
      fun hxr hbase => hapart _ hbase _ (mem_map.2 ⟨x, hxarm, hxr⟩) rfl
    by_cases hnew : suffixed P.armName x ∈ P.collisions
    · -- the name with the suffix gets one too
      obtain ⟨hnewArm, hnewBase⟩ := mem_collisions.1 hnew
      rcases renameText_suffixed collisions_nodup hx with hxr | hxr
      · exact absurd (valueNames_declared hnewBase) (hrename hxr)
      · exact absurd (hinj hxarm (valueNames_declared hnewArm) hxr).symm hne
    · have hxr : P.rename [] x = suffixed P.armName x := renameText_of_mem hx not_mem_nil hnew
      refine ⟨hrename hxr, fun hnewArm => hne ?_⟩
      exact (hinj hxarm hnewArm (hxr.trans (renameText_of_notMem hnew).symm)).symm

variable {i : Import} {place : Place} {r : Ref}

/-- The imports of the merged module. -/
theorem mem_mergedImports (hv : P.Valid) (hp : P.NamesPlain) :
    i ∈ P.mergedImports ↔ i ∈ P.arm.imports ++ P.base.imports ∧ i.kept := by
  have harm : P.arm.imports.map (renameImport P.collisions P.armName []) = P.arm.imports := by
    refine (map_congr_left fun j hj => ?_).trans (map_id _)
    refine renameImport_of_notMem (fun hc => ?_) (hp.listed j hj)
    exact (hv.imports P.arm (by simp) j hj).1 (valueNames_declared (mem_collisions.1 hc).1)
  rw [mergedImports, harm, ← filter_append, mem_filter]

/-! ## Components and dummy arguments -/

variable {l : Label} {o : List Label} {s : Selector}

theorem mergedLabel_of_suffixed (hp : P.DeclaredPlain) (h : P.Suffixed l) :
    P.mergedLabel l = suffixed P.armName l.name := by
  obtain ⟨hc, typed, htyped, hnot⟩ := h
  rw [mergedLabel, htyped]
  exact rename_of_mem hp hc hnot

theorem mergedLabel_of_not (h : ¬ P.Suffixed l) : P.mergedLabel l = l.name := by
  unfold mergedLabel
  split
  · rename_i typed htyped
    by_cases hc : l.name ∈ P.collisions
    · have hmem : l.name ∈ typed := by
        by_contra hnot
        exact h ⟨hc, typed, htyped, hnot⟩
      exact renameText_of_typed hmem
    · exact renameText_of_notMem hc
  · rfl

/-- The components and dummy arguments stay apart where no other one has the name with the
suffix. -/
theorem mergedLabels_nodup (hv : P.Valid) (hp : P.DeclaredPlain) (ho : o ∈ P.owners)
    (h : ∀ l ∈ o, ∀ k ∈ o, P.Suffixed l → k.name ≠ suffixed P.armName l.name) :
    (o.map P.mergedLabel).Nodup := by
  refine (nodup_map_iff_inj_on (List.Nodup.of_map Label.name (hv.owners o ho))).2
    fun l hl k hk heq => ?_
  apply inj_on_of_nodup_map (hv.owners o ho) hl hk
  by_cases hls : P.Suffixed l <;> by_cases hks : P.Suffixed k
  · rw [mergedLabel_of_suffixed hp hls, mergedLabel_of_suffixed hp hks] at heq
    exact suffixed_injective P.armName heq
  · rw [mergedLabel_of_suffixed hp hls, mergedLabel_of_not hks] at heq
    exact absurd heq.symm (h l hl k hk hls)
  · rw [mergedLabel_of_not hls, mergedLabel_of_suffixed hp hks] at heq
    exact absurd heq (h k hk l hl hks)
  · rwa [mergedLabel_of_not hls, mergedLabel_of_not hks] at heq

/-- The name that a selector or keyword has after the merge is that of its component or dummy
argument, and of no other one. -/
theorem mergedLabel_eq_iff (hv : P.Valid) (hs : s ∈ P.base.selectors ++ P.arm.selectors) {y : Name}
    (hnodup : (s.owner.map P.mergedLabel).Nodup)
    (h : ∀ l ∈ s.owner, l.name = s.name → P.mergedLabel l = y) (hl : l ∈ s.owner) :
    P.mergedLabel l = y ↔ l.name = s.name := by
  refine ⟨fun heq => ?_, h l hl⟩
  obtain ⟨k, hk, hname⟩ := mem_map.1 (hv.selectors s hs).2
  rw [inj_on_of_nodup_map hnodup hl hk (heq.trans (h k hk hname).symm), hname]

/-- **Selectors and keywords** name what they named. -/
theorem keepsSelectors (hv : P.Valid) (hp : P.DeclaredPlain) (h : P.SelectorsPlain) :
    P.KeepsSelectors := by
  have hnodup : ∀ s ∈ P.base.selectors ++ P.arm.selectors, (s.owner.map P.mergedLabel).Nodup :=
    fun s hs =>
    mergedLabels_nodup hv hp (hv.selectors s hs).1 (h.owners _ (hv.selectors s hs).1)
  refine ⟨fun s hs l hl => ?_, fun s hs l hl => ?_⟩
  · have hs' : s ∈ P.base.selectors ++ P.arm.selectors := mem_append_left _ hs
    refine mergedLabel_eq_iff hv hs' (hnodup s hs') (fun k hk hname => ?_) hl
    rw [mergedLabel_of_not (h.selectorsBase s hs k hk hname), hname]
  · have hs' : s ∈ P.base.selectors ++ P.arm.selectors := mem_append_right _ hs
    refine mergedLabel_eq_iff hv hs' (hnodup s hs') (fun k hk hname => ?_) hl
    have hiff := h.selectorsArm s hs k hk hname
    by_cases hsuffixed : P.Suffixed k
    · obtain ⟨hc, htyped⟩ := hiff.1 hsuffixed
      rw [mergedLabel_of_suffixed hp hsuffixed, hname]
      exact (rename_of_mem hp hc htyped).symm
    · rw [mergedLabel_of_not hsuffixed, hname]
      by_cases hc : s.name ∈ P.collisions
      · have htyped : s.name ∈ s.typed := by
          by_contra hnot
          exact hsuffixed (hiff.2 ⟨hc, hnot⟩)
        exact (renameText_of_typed htyped).symm
      · exact (renameText_of_notMem hc).symm

/-- Where components and dummy arguments stay apart and selectors and keywords name what they named,
the condition on them holds. -/
theorem selectorsPlain_of_keeps (hp : P.DeclaredPlain)
    (hnodup : ∀ o ∈ P.owners, (o.map P.mergedLabel).Nodup)
    (h : P.KeepsSelectors) : P.SelectorsPlain := by
  refine ⟨fun o ho l hl k hk hsuffixed heq => ?_, fun s hs l hl hname hsuffixed => ?_,
    fun s hs l hl hname => ?_⟩
  · -- the other one would keep the name that this one gets
    have hplain : ¬ P.Suffixed k := by
      rintro ⟨hc, -⟩
      exact (hp.fresh l.name hsuffixed.1).2 (heq ▸ valueNames_declared (mem_collisions.1 hc).1)
    have hsame : P.mergedLabel l = P.mergedLabel k := by
      rw [mergedLabel_of_suffixed hp hsuffixed, mergedLabel_of_not hplain, heq]
    have hlk : l = k := inj_on_of_nodup_map (hnodup o ho) hl hk hsame
    exact suffixed_ne P.armName l.name (by rw [← heq, hlk])
  · have hmerged := (h.1 s hs l hl).2 hname
    rw [mergedLabel_of_suffixed hp hsuffixed, ← hname] at hmerged
    exact suffixed_ne P.armName l.name hmerged
  · have hmerged := (h.2 s hs l hl).2 hname
    constructor
    · intro hsuffixed
      rw [mergedLabel_of_suffixed hp hsuffixed, hname] at hmerged
      refine ⟨hname ▸ hsuffixed.1, fun htyped => suffixed_ne P.armName s.name ?_⟩
      rw [hmerged, rename, renameText_of_typed htyped]
    · rintro ⟨hc, htyped⟩
      by_contra hnot
      rw [mergedLabel_of_not hnot, rename_of_mem hp hc htyped, hname] at hmerged
      exact suffixed_ne P.armName s.name hmerged.symm

/-- A name that the merged module declares is not imported. -/
theorem oneEntity (hv : P.Valid) (hp : P.NamesPlain) : P.OneEntity := by
  refine ⟨mergedDeclared_nodup hv hp, fun i hi hmem => ?_, fun i hi j hj hname => ?_,
    fun o ho => mergedLabels_nodup hv hp.toDeclaredPlain ho (hp.owners o ho)⟩
  · obtain ⟨hi, hkept⟩ := (mem_mergedImports hv hp).1 hi
    rw [mergedDeclared_names, mem_append] at hmem
    -- the renamed names are no names of imports
    have hrenamed : ∀ z ∈ P.arm.declared, i.name = P.rename [] z → i.name = z := by
      intro z hz h
      by_cases hzc : z ∈ P.collisions
      · rw [rename_of_mem hp.toDeclaredPlain hzc not_mem_nil] at h
        refine absurd h ((hp.new z hzc).1 i ?_)
        exact mem_append.2 (mem_append.1 hi).symm
      · rwa [rename, renameText_of_notMem hzc] at h
    rcases mem_append.1 hi with hi | hi
    · rcases hmem with hmem | hmem
      · exact hp.importsArm i hi hkept hmem
      · obtain ⟨z, hz, h⟩ := mem_map.1 hmem
        exact (hv.imports P.arm (by simp) i hi).1 (hrenamed z hz h.symm ▸ hz)
    · rcases hmem with hmem | hmem
      · exact (hv.imports P.base (by simp) i hi).1 hmem
      · obtain ⟨z, hz, h⟩ := mem_map.1 hmem
        exact hp.importsBase i hi hkept (hrenamed z hz h.symm ▸ hz)
  · obtain ⟨hi, hik⟩ := (mem_mergedImports hv hp).1 hi
    obtain ⟨hj, hjk⟩ := (mem_mergedImports hv hp).1 hj
    rcases mem_append.1 hi with hi | hi <;> rcases mem_append.1 hj with hj | hj
    · exact (hv.imports P.arm (by simp) i hi).2.2 j hj hname
    · exact (hp.importsBoth j hj i hi hjk hik hname.symm).symm
    · exact hp.importsBoth i hi j hj hik hjk hname
    · exact (hv.imports P.base (by simp) i hi).2.2 j hj hname

/-- A declared name of the merged module. -/
theorem mergedScope_declared (hv : P.Valid) (hp : P.NamesPlain) {e : Entity}
    (h : (x, e) ∈ P.mergedDeclared) :
    P.mergedScope x = some e := by
  unfold mergedScope
  rw [AssocLists.lookup_of_mem (mergedDeclared_nodup hv hp) h]

/-- An imported name of the merged module. -/
theorem mergedScope_import (hv : P.Valid) (hp : P.NamesPlain) (h : i ∈ P.mergedImports) :
    P.mergedScope i.name = P.exports i.via i.source := by
  have hone := oneEntity hv hp
  unfold mergedScope
  rw [AssocLists.lookup_eq_none.2 (hone.2.1 i h)]
  simp only
  cases hfind : findImport P.mergedImports i.name with
  | none => exact absurd rfl (findImport_eq_none.1 hfind i h)
  | some j =>
    obtain ⟨hj, hname⟩ := of_findImport hfind
    exact hone.2.2.1 j hj i h hname

/-- A name that neither module has. -/
theorem mergedScope_eq_none (hdeclared : x ∉ P.mergedDeclared.map Prod.fst)
    (himports : ∀ i ∈ P.mergedImports, i.name ≠ x) : P.mergedScope x = none := by
  unfold mergedScope
  rw [AssocLists.lookup_eq_none.2 hdeclared, findImport_eq_none.2 himports]
  rfl

/-- **A name of one of the modules that gets no suffix** is what it was, if the module has it itself
or from a third. -/
theorem mergedScope_own (hv : P.Valid) (hp : P.NamesPlain)
    (hM : (M, place) ∈ [(P.base, Place.base), (P.arm, Place.arm)])
    (hx : place = .arm → x ∉ P.collisions)
    (h : x ∈ M.declared ∨ x ∉ M.declared ∧ ∃ j, findImport M.imports x = some j ∧ j.kept) :
    P.mergedScope x = P.scope place M x := by
  have hcases : M = P.base ∧ place = .base ∨ M = P.arm ∧ place = .arm := by simpa using hM
  rcases h with h | ⟨hnot, j, hj, hkept⟩
  · rw [scope, if_pos h]
    apply mergedScope_declared hv hp
    unfold mergedDeclared
    rcases hcases with ⟨rfl, rfl⟩ | ⟨rfl, rfl⟩
    · exact mem_append_left _ (mem_map.2 ⟨x, h, rfl⟩)
    · exact mem_append_right _ (mem_map.2 ⟨x, h, by rw [rename, renameText_of_notMem (hx rfl)]⟩)
  · obtain ⟨hmem, hname⟩ := of_findImport hj
    rw [scope, if_neg hnot, hj, ← hname]
    refine mergedScope_import hv hp ((mem_mergedImports hv hp).2 ⟨mem_append.2 ?_, hkept⟩)
    rcases hcases with ⟨rfl, -⟩ | ⟨rfl, -⟩
    · exact .inr hmem
    · exact .inl hmem

/-- A dropped import. -/
theorem mergedScope_dropped (hv : P.Valid) (hp : P.NamesPlain) (h : P.OwnName i) :
    P.mergedScope i.name = P.exports i.via i.source := by
  obtain ⟨hname, hcol, M, place, hM, hvia, hown⟩ := h
  rw [← hname] at hown
  rw [mergedScope_own hv hp hM (fun _ => hcol) hown, hvia, ← hname]
  have hcases : M = P.base ∧ place = .base ∨ M = P.arm ∧ place = .arm := by simpa using hM
  rcases hcases with ⟨rfl, rfl⟩ | ⟨rfl, rfl⟩
  · exact (hv.exports i.name).1.symm
  · exact (hv.exports i.name).2.symm

/-- **The names of a module** are what they were, but for those that get a suffix. -/
theorem mergedScope_eq (hv : P.Valid) (hp : P.NamesPlain)
    (hM : (M, place) ∈ [(P.base, Place.base), (P.arm, Place.arm)])
    (hx : place = .arm → x ∉ P.collisions)
    (hnone : P.scope place M x = none → P.mergedScope x = none) :
    P.mergedScope x = P.scope place M x := by
  by_cases hdeclared : x ∈ M.declared
  · exact mergedScope_own hv hp hM hx (.inl hdeclared)
  · have hcases : M = P.base ∧ place = .base ∨ M = P.arm ∧ place = .arm := by simpa using hM
    cases hfind : findImport M.imports x with
    | none =>
      have hscope : P.scope place M x = none := by rw [scope, if_neg hdeclared, hfind]; rfl
      rw [hnone hscope, hscope]
    | some i =>
      obtain ⟨hi, hname⟩ := of_findImport hfind
      cases hkept : i.kept with
      | true => exact mergedScope_own hv hp hM hx (.inr ⟨hdeclared, i, hfind, hkept⟩)
      | false =>
        have himport : i ∈ P.base.imports ++ P.arm.imports := by
          rcases hcases with ⟨rfl, -⟩ | ⟨rfl, -⟩
          · exact mem_append_left _ hi
          · exact mem_append_right _ hi
        rw [scope, if_neg hdeclared, hfind, ← hname]
        exact mergedScope_dropped hv hp (hp.dropped i himport hkept)

/-! ## The references -/

/-- The imports of a procedure after the merge. -/
theorem frame_imports {exports : Place → Name → Option Entity} {frames : List Frame}
    (hp : P.FramesPlain frames)
    (hscope : ∀ i, P.OwnName i → P.mergedScope i.name = exports i.via i.source)
    {v' : Frame → View} (himports : ∀ f ∈ frames, (v' f).imports = f.imports.filter Import.kept)
    (hnames : ∀ f ∈ frames, (v' f).names = f.view.names)
    (hsame : ∀ f ∈ frames, ∀ i ∈ f.imports, ∀ j ∈ f.imports, i.name = j.name →
      exports i.via i.source = exports j.via j.source) (pre : List Frame) (f : Frame)
      (post : List Frame)
    (heq : frames = pre ++ f :: post) : match findImport f.view.imports x with
      | none => findImport (v' f).imports x = none
      | some i => (∃ j, findImport (v' f).imports x = some j ∧
          exports j.via j.source = exports i.via i.source) ∨
          findImport (v' f).imports x = none ∧ (∀ g ∈ post, ¬ (v' g).binds x) ∧
            P.mergedScope x = exports i.via i.source := by
  have hf : f ∈ frames := heq ▸ mem_append_right pre mem_cons_self
  rw [himports f hf]
  have hview : f.view.imports = f.imports := rfl
  rw [hview]
  cases hfind : findImport f.imports x with
  | none => exact findImport_eq_none.2 fun i hi => findImport_eq_none.1 hfind i (mem_filter.1 hi).1
  | some i =>
    obtain ⟨hi, rfl⟩ := of_findImport hfind
    cases hkept : findImport (f.imports.filter Import.kept) i.name with
    | some j =>
      obtain ⟨hj, hname⟩ := of_findImport hkept
      exact .inl ⟨j, rfl, hsame f hf j (mem_filter.1 hj).1 i hi hname⟩
    | none =>
      have hdropped : i.kept = false := by
        by_contra h
        exact findImport_eq_none.1 hkept i (mem_filter.2 ⟨hi, by simpa using h⟩) rfl
      obtain ⟨hown, hpost⟩ := hp pre f post heq i hi hdropped
      refine .inr ⟨rfl, fun g hg => ?_, hscope i hown⟩
      have hg' : g ∈ frames := heq ▸ mem_append_right pre (mem_cons_of_mem f hg)
      rintro (hmem | ⟨j, hj, hname⟩)
      · exact hpost g hg (.inl (hnames g hg' ▸ hmem))
      · rw [himports g hg'] at hj
        exact hpost g hg (.inr ⟨j, (mem_filter.1 hj).1, hname⟩)

theorem scope_eq_none (hv : P.Valid)
    (hM : (M, place) ∈ [(P.base, Place.base), (P.arm, Place.arm)]) (h : P.scope place M x = none) :
    x ∉ M.declared ∧ ∀ i ∈ M.imports, i.name ≠ x := by
  unfold scope at h
  split at h
  · exact absurd h (by simp)
  · refine ⟨‹_›, fun i hi hname => ?_⟩
    cases hfind : findImport M.imports x with
    | none => exact findImport_eq_none.1 hfind i hi hname
    | some j =>
      rw [hfind] at h
      have hmodule : M ∈ [P.base, P.arm] := by
        have hcases : M = P.base ∧ place = .base ∨ M = P.arm ∧ place = .arm := by simpa using hM
        rcases hcases with ⟨rfl, -⟩ | ⟨rfl, -⟩ <;> simp
      have hsome := (hv.imports M hmodule j (of_findImport hfind).1).2.1
      rw [Option.bind_some] at h
      rw [h] at hsome
      exact absurd hsome (by simp)

/-- A name that neither module has is none of the merged module. -/
theorem mergedScope_unknown (hv : P.Valid) (hp : P.NamesPlain) (hbase : x ∉ P.base.declared)
    (harm : x ∉ P.arm.declared) (hnew : ∀ y ∈ P.collisions, x ≠ suffixed P.armName y)
    (himports : ∀ i ∈ P.base.imports ++ P.arm.imports, i.kept → i.name ≠ x) :
    P.mergedScope x = none := by
  refine mergedScope_eq_none (fun hmem => ?_) fun i hi => ?_
  · rw [mergedDeclared_names] at hmem
    rcases mem_append.1 hmem with hmem | hmem
    · exact hbase hmem
    · obtain ⟨y, hy, rfl⟩ := mem_map.1 hmem
      by_cases hyc : y ∈ P.collisions
      · exact hnew y hyc (rename_of_mem hp.toDeclaredPlain hyc not_mem_nil)
      · rw [rename, renameText_of_notMem hyc] at harm
        exact harm hy
  · obtain ⟨hi, hkept⟩ := (mem_mergedImports hv hp).1 hi
    exact himports i (mem_append.2 (mem_append.1 hi).symm) hkept

/-- **The references of the base's module.** -/
theorem keepsRef_base (hv : P.Valid) (hp : P.NamesPlain) (hr : r ∈ P.base.refs) :
    resolve P.exports P.mergedScope r.name 0 (r.frames.map (Frame.merged [] P.armName)) =
      resolve P.exports (P.scope .base P.base) r.name 0 (r.frames.map Frame.view) := by
  have hr' : r ∈ P.base.refs ++ P.arm.refs := mem_append_left _ hr
  have hnames : ∀ f ∈ r.frames, (Frame.merged [] P.armName f).names = f.view.names := fun _ _ => rfl
  have himports : ∀ f ∈ r.frames, (Frame.merged [] P.armName f).imports =
      f.imports.filter Import.kept := by
    intro f _
    rw [Frame.merged]
    simp only
    congr 1
    exact (map_congr_left fun i _ => renameImport_nil i).trans (map_id _)
  refine resolve_congr r.frames (fun f hf => by rw [hnames f hf]) (frame_imports (hp.frames r hr')
    (fun i hi => mergedScope_dropped hv hp hi) himports hnames (hv.frames r hr')) fun hunbound => ?_
  refine mergedScope_eq hv hp (by simp) (fun h => absurd h (by simp)) fun hnone => ?_
  obtain ⟨hdeclared, hown⟩ := scope_eq_none hv (by simp) hnone
  obtain ⟨harm, hother⟩ := hp.unresolvedBase r hr hunbound hnone
  refine mergedScope_unknown hv hp hdeclared harm
    (fun y hy => (hp.new y hy).2.1 r hr' hunbound) fun i hi hkept => ?_
  rcases mem_append.1 hi with hi | hi
  · exact hown i hi
  · exact hother i hi hkept

/-- A procedure of the arm's module after the merge. -/
theorem frame_merged (hp : P.NamesPlain) (hr : r ∈ P.arm.refs) {f : Frame} (hf : f ∈ r.frames) :
    (Frame.merged P.collisions P.armName f).names = f.view.names ∧
      (Frame.merged P.collisions P.armName f).imports = f.imports.filter Import.kept := by
  obtain ⟨himports, hinner⟩ := hp.framesArm r hr f hf
  constructor
  · rw [Frame.merged, Frame.view]
    simp only
    congr 1
    exact map_congr_left fun p hpmem => by rw [renameText_of_notMem (hinner p hpmem)]
  · rw [Frame.merged]
    simp only
    congr 1
    refine (map_congr_left fun i hi => ?_).trans (map_id _)
    exact renameImport_of_notMem (himports i hi).1 (himports i hi).2

/-- **The references of the arm's module.** -/
theorem keepsRef_arm (hv : P.Valid) (hp : P.NamesPlain) (hr : r ∈ P.arm.refs) :
    resolve P.exports P.mergedScope (P.rename r.typed r.name) 0
      (r.frames.map (Frame.merged P.collisions P.armName)) =
      resolve P.exports (P.scope .arm P.arm) r.name 0 (r.frames.map Frame.view) := by
  have hr' : r ∈ P.base.refs ++ P.arm.refs := mem_append_right _ hr
  have hnames : ∀ f ∈ r.frames, (Frame.merged P.collisions P.armName f).names = f.view.names :=
    fun f hf =>
    (frame_merged hp hr hf).1
  have himports : ∀ f ∈ r.frames, (Frame.merged P.collisions P.armName f).imports =
      f.imports.filter Import.kept :=
    fun f hf => (frame_merged hp hr hf).2
  -- where the name stays the procedures have it as before
  have hsame : (r.Unbound → P.mergedScope r.name = P.scope .arm P.arm r.name) →
      resolve P.exports P.mergedScope r.name 0
        (r.frames.map (Frame.merged P.collisions P.armName)) =
        resolve P.exports (P.scope .arm P.arm) r.name 0 (r.frames.map Frame.view) := fun hscope =>
    resolve_congr r.frames (fun f hf => by rw [hnames f hf]) (frame_imports (hp.frames r hr')
      (fun i hi => mergedScope_dropped hv hp hi) himports hnames (hv.frames r hr')) hscope
  by_cases hc : r.name ∈ P.collisions
  · by_cases htyped : r.name ∈ r.typed
    · -- the innermost procedure declares the name
      rw [rename, renameText_of_typed htyped]
      refine hsame fun hunbound => ?_
      cases hframes : r.frames with
      | nil =>
        rw [Ref.typed, hframes] at htyped
        exact absurd htyped not_mem_nil
      | cons f frames =>
        rw [Ref.typed, hframes] at htyped
        refine absurd (.inl ?_) (hunbound f (hframes ▸ mem_cons_self))
        rw [Frame.view, map_append, map_map]
        exact mem_append_left _ (mem_map.2 ⟨r.name, htyped, rfl⟩)
    · -- no procedure has the name: it is the module's, which has a suffix
      have hfree := (hp.shadowing r hr hc).resolve_left htyped
      have hunbound : r.Unbound := by
        intro f hf
        rintro (hmem | ⟨i, hi, hname⟩)
        · rw [Frame.view, map_append, map_map, map_map] at hmem
          rcases mem_append.1 hmem with hmem | hmem
          · obtain ⟨y, hy, rfl⟩ := mem_map.1 hmem
            exact hfree f hf hy
          · obtain ⟨p, hpmem, hpname⟩ := mem_map.1 hmem
            exact ((hp.framesArm r hr f hf).2 p hpmem) (by rw [← hpname] at hc; exact hc)
        · exact ((hp.framesArm r hr f hf).1 i hi).1 (hname ▸ hc)
      have hnew : ∀ f ∈ r.frames, ¬ f.view.binds (suffixed P.armName r.name) :=
        (hp.new r.name hc).2.2 r hr rfl
      have hrename : P.rename r.typed r.name = suffixed P.armName r.name :=
        rename_of_mem hp.toDeclaredPlain hc htyped
      have hdeclared : r.name ∈ P.arm.declared := valueNames_declared (mem_collisions.1 hc).1
      rw [hrename]
      refine resolve_congr r.frames (fun f hf => ?_) (fun pre f post heq => ?_) fun _ => ?_
      · rw [hnames f hf, AssocLists.lookup_eq_none.2 fun h => hnew f hf (.inl h),
          AssocLists.lookup_eq_none.2 fun h => hunbound f hf (.inl h)]
      · have hf : f ∈ r.frames := heq ▸ mem_append_right pre mem_cons_self
        rw [findImport_eq_none.2 fun i hi hname => hunbound f hf (.inr ⟨i, hi, hname⟩)]
        simp only
        rw [himports f hf]
        exact findImport_eq_none.2 fun i hi hname =>
          hnew f hf (.inr ⟨i, (mem_filter.1 hi).1, hname⟩)
      · rw [scope, if_pos hdeclared]
        refine mergedScope_declared hv hp (mem_append_right _ (mem_map.2 ⟨r.name, hdeclared, ?_⟩))
        rw [rename_of_mem hp.toDeclaredPlain hc not_mem_nil]
  · rw [rename, renameText_of_notMem hc]
    refine hsame fun hunbound => mergedScope_eq hv hp (by simp) (fun _ => hc) fun hnone => ?_
    obtain ⟨hdeclared, hown⟩ := scope_eq_none hv (by simp) hnone
    obtain ⟨hbase, hother⟩ := hp.unresolvedArm r hr hunbound hnone
    refine mergedScope_unknown hv hp hbase hdeclared
      (fun y hy => (hp.new y hy).2.1 r hr' hunbound) fun i hi hkept => ?_
    rcases mem_append.1 hi with hi | hi
    · exact hother i hi hkept
    · exact hown i hi

/-! ## The merge -/

/-- The declarations of the merged module have different names. -/
theorem mergedItems_nodup (h : P.OneEntity) : (P.mergedItems.map Item.name).Nodup := by
  have hnodup := h.1
  rw [mergedDeclared_names, Module.declared, Module.declared, map_append, append_assoc] at hnodup
  refine List.Nodup.sublist ?_ hnodup
  rw [mergedItems, map_append, map_map]
  refine List.Sublist.append_left ?_ _
  refine List.Sublist.trans ?_ (sublist_append_right _ _)
  rw [map_map]
  exact sublist_append_left _ _

end Program

/-! ## Derived types of one name -/

/-- Two modules with a derived type each; the arm's has a component `c` of the type `b`, which it
may import, and selects it. -/
def twoModules (armType : Name) (imports : List Import) : Program where
  base := ⟨[⟨['b'], true, [], []⟩], [], [], [], []⟩
  arm := ⟨[⟨armType, true, [['b']], []⟩], [], imports, [⟨[], armType⟩],
    [⟨[], [⟨['c'], some []⟩], ['c']⟩]⟩
  armName := ['m']
  exports := fun place x => match place with
    | .base => if x = ['b'] then some (.base, x) else none
    | .arm => if x = armType then some (.arm, x)
      else (findImport imports x).bind fun i => if i.source =
        ['b'] then some (.base, i.source) else none
    | .other _ => none
  owners := [[⟨['c'], some []⟩]]

theorem valid_twoModules {armType : Name}
    (h : ∀ i ∈ imports, i = ⟨['b'], .base, ['b'], false⟩ ∧ armType ≠ ['b']) :
    (twoModules armType imports).Valid where
  nodup := by simp [twoModules, Module.declared]
  imports := by
    intro M hM i hi
    simp only [twoModules, mem_cons, not_mem_nil, or_false] at hM
    rcases hM with rfl | rfl
    · exact absurd hi not_mem_nil
    · obtain ⟨rfl, hne⟩ := h i hi
      refine ⟨by simpa [Module.declared] using hne.symm, rfl, fun j hj _ => ?_⟩
      obtain ⟨rfl, -⟩ := h j hj
      rfl
  exports := by
    intro x
    constructor
    · by_cases hx : x = ['b'] <;> simp [twoModules, Program.scope, Module.declared, findImport, hx]
    · by_cases hx : x = armType
      · simp [twoModules, Program.scope, Module.declared, hx]
      · simp only [twoModules, Program.scope, Module.declared, hx, map_cons, map_nil, append_nil,
          mem_singleton, if_false]
        cases hfind : findImport imports x with
        | none => rfl
        | some i =>
          obtain ⟨rfl, -⟩ := h i (of_findImport hfind).1
          rfl
  frames := by
    intro r hr f hf
    simp only [twoModules, nil_append, mem_singleton] at hr
    subst hr
    exact absurd hf not_mem_nil
  owners := by simp [twoModules]
  selectors := by simp [twoModules]

theorem collisions_twoModules (armType : Name) (imports : List Import) :
    (twoModules armType imports).collisions = [] :=
  eq_nil_iff_forall_not_mem.2 fun x hx => by
    simpa [twoModules, valueNames] using (Program.mem_collisions.1 hx).1

end ArmModules
