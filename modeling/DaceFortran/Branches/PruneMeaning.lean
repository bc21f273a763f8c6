/-
# When pruned branches keep their meaning

The pruned part is equivalent to the part if no `EXIT` is orphaned, and otherwise it is no
program any more.
-/
import DaceFortran.Branches.PruneKeeps

open List

namespace Branches

variable {L : Language} {fold : L.Cond → Option Bool}

/-! ## Executions -/

variable {b : Block L} {n : L.Name} {names names' : List L.Name}

/-- No execution of a block leaves it through this name. -/
theorem not_exec_exit {W : World L} (hfold : FoldSound fold W) (h : ¬ KeptExit fold n b)
    (s : W.State) (tr : List L.Action) (s' : W.State) :
    ¬ Exec W (.block b) s tr (.exit (some n)) s' :=
  fun he => h (codeExit_of_exec hfold he)

variable {b b' : Block L} {names : List L.Name}

/-- A block and the pruned one have the same executions, and so have their first arms and what is
selected in them. -/
theorem Pruned.equiv {W : World L} (hfold : FoldSound fold W) (h : Pruned fold b b') {m : Bool}
    (hb : b.Wf m) (ho : ¬ Orphaned fold b) :
    Equiv W b b' ∧ Equiv W b.firstArm b'.firstArm ∧
      ∀ s, Equiv W (selectFrom (W.holds · s) b) (selectFrom (W.holds · s) b') := by
  -- on the pruning; an orphaned exit in a part would be one of the whole block
  induction h generalizing m with
  | nil => exact ⟨Equiv.refl _, Equiv.refl _, fun _ => Equiv.refl _⟩
  | act a h ih =>
    obtain ⟨h₁, h₂, h₃⟩ := ih hb fun h => ho (.afterAct a h)
    exact ⟨h₁.act a, h₂.act a, h₃⟩
  | @ifStmt cond rest rest' id a hc h ih =>
    obtain ⟨h₁, h₂, h₃⟩ := ih hb fun h => ho (.afterIfStmt id cond a h)
    exact ⟨h₁.ifStmt id cond a, h₂.ifStmt id cond a, h₃⟩
  | @ifStmtTrue cond rest rest' id a hc h ih =>
    obtain ⟨h₁, h₂, h₃⟩ := ih hb fun h => ho (.afterIfStmt id cond a h)
    have htrue := equiv_ifStmt_true (hfold cond true hc) id a
    exact ⟨(htrue rest).trans (h₁.act a), (htrue rest.firstArm).trans (h₂.act a), h₃⟩
  | @ifStmtFalse cond rest rest' id a hc h ih =>
    obtain ⟨h₁, h₂, h₃⟩ := ih hb fun h => ho (.afterIfStmt id cond a h)
    have hfalse := equiv_ifStmt_false (hfold cond false hc) id a
    exact ⟨(hfalse rest).trans h₁, (hfalse rest.firstArm).trans h₂, h₃⟩
  | @keep id name cond cond' children children' children'' rest rest' hr hc h ihc ih =>
    obtain ⟨-, hfirst, hfrom⟩ := ihc (resolve_wf hr hb.1) fun h => ho (.keep rest hr h)
    obtain ⟨h₁, h₂, h₃⟩ := ih hb.2 fun h => ho (.afterIf id name cond children h)
    have harm : ∀ s, Equiv W (selectArm (W.holds · s) cond children)
        (selectArm (W.holds · s) cond' children'') := by
      intro s
      rw [selectArm_resolve fun c v hc => hfold c v hc s, hr]
      show Equiv W (selectArm (W.holds · s) cond' children') _
      unfold selectArm
      split
      · exact hfirst
      · exact hfrom s
    exact ⟨Equiv.ifConstruct id name harm h₁, Equiv.ifConstruct id name harm h₂, h₃⟩
  | @splice id name cond children actions actions' rest rest' hr hc h ihc ih =>
    have hwf : actions.Wf false := resolve_wf hr hb.1
    obtain ⟨ha, -, -⟩ := ihc hwf fun h => ho (.splice rest hr h)
    obtain ⟨h₁, h₂, h₃⟩ := ih hb.2 fun h => ho (.afterIf id name cond children h)
    have harm : ∀ s, selectArm (W.holds · s) cond children = actions := by
      intro s
      rw [selectArm_resolve fun c v hc => hfold c v hc s, hr]
    have hexit : ∀ n, name = some n →
        ∀ s tr s', ¬ Exec W (.block actions) s tr (.exit (some n)) s' := by
      rintro n rfl
      exact not_exec_exit hfold fun h => ho (.here rest hr h)
    have hsplice := equiv_splice harm hexit id
    refine ⟨(hsplice rest).trans (ha.append h₁), ?_, ?_⟩
    · rw [Block.firstArm_append (hc.wf hwf)]
      exact (hsplice rest.firstArm).trans (ha.append h₂)
    · intro s
      rw [selectFrom_append (hc.wf hwf)]
      exact h₃ s
  | @elseIf rest rest' cond h ih =>
    obtain ⟨h₁, h₂, h₃⟩ := ih hb.2 fun h => ho (.afterElseIf cond h)
    refine ⟨?_, Equiv.refl _, ?_⟩
    · intro s tr o s'
      constructor
      · rintro ⟨⟩
        exact .stop _ _
      · rintro ⟨⟩
        exact .stop _ _
    · intro s
      rw [selectFrom, selectFrom]
      split
      · exact h₂
      · exact h₃ s
  | elseStmt h ih =>
    obtain ⟨h₁, h₂, h₃⟩ := ih hb.2 fun h => ho (.afterElse h)
    refine ⟨?_, Equiv.refl _, fun _ => h₁⟩
    intro s tr o s'
    constructor
    · rintro ⟨⟩
      exact .stop _ _
    · rintro ⟨⟩
      exact .stop _ _
  | @construct n parts parts' rest rest' kind name hp h ihp ih =>
    have hparts : ∀ j, Equiv W (parts j) (parts' j) :=
      fun j => (ihp j (hb.1 j) fun h => ho (.part rest j h)).1
    obtain ⟨h₁, h₂, h₃⟩ := ih hb.2 fun h => ho (.afterConstruct kind name n parts h)
    exact ⟨Equiv.construct kind name hparts h₁, Equiv.construct kind name hparts h₂, h₃⟩

/-! ## Exits -/

theorem exitsInside_mono (hn : names ⊆ names')
    (h : ExitsInside names b) : ExitsInside names' b := by
  induction b generalizing names names' with
  | nil => trivial
  | act a rest ih => exact ⟨fun n ha => hn (h.1 n ha), ih hn h.2⟩
  | ifStmt id cond a rest ih => exact ⟨fun n ha => hn (h.1 n ha), ih hn h.2⟩
  | ifConstruct id name cond children rest ihc ih =>
    exact ⟨ihc (append_subset.2 ⟨subset_append_left _ _,
      List.Subset.trans hn (subset_append_right _ _)⟩) h.1,
      ih hn h.2⟩
  | elseIf cond rest ih => exact ih hn h
  | elseStmt rest ih => exact ih hn h
  | construct kind name n parts rest ihp ih =>
    exact ⟨fun j => ihp j (append_subset.2 ⟨subset_append_left _ _,
      List.Subset.trans hn (subset_append_right _ _)⟩) (h.1 j), ih hn h.2⟩

theorem exitsInside_append {a b : Block L} :
    ExitsInside names (a.append b) ↔ ExitsInside names a ∧ ExitsInside names b := by
  induction a with
  | nil => exact ⟨fun h => ⟨trivial, h⟩, fun h => h.2⟩
  | act x rest ih => exact (and_congr_right fun _ => ih).trans and_assoc.symm
  | ifStmt id cond x rest ih => exact (and_congr_right fun _ => ih).trans and_assoc.symm
  | ifConstruct id name cond children rest _ ih =>
      exact (and_congr_right fun _ => ih).trans and_assoc.symm
  | elseIf cond rest ih => exact ih
  | elseStmt rest ih => exact ih
  | construct kind name n parts rest _ ih =>
      exact (and_congr_right fun _ => ih).trans and_assoc.symm

theorem exitsInside_firstArm (h : ExitsInside names b) :
    ExitsInside names b.firstArm := by
  induction b with
  | nil => trivial
  | act a rest ih => exact ⟨h.1, ih h.2⟩
  | ifStmt id cond a rest ih => exact ⟨h.1, ih h.2⟩
  | ifConstruct id name cond children rest _ ih => exact ⟨h.1, ih h.2⟩
  | elseIf cond rest ih => trivial
  | elseStmt rest ih => trivial
  | construct kind name n parts rest _ ih => exact ⟨h.1, ih h.2⟩

theorem namesApart_firstArm (h : NamesApart names b) :
    NamesApart names b.firstArm := by
  induction b with
  | nil => trivial
  | act a rest ih => exact ih h
  | ifStmt id cond a rest ih => exact ih h
  | ifConstruct id name cond children rest _ ih => exact ⟨h.1, h.2.1, ih h.2.2⟩
  | elseIf cond rest ih => trivial
  | elseStmt rest ih => trivial
  | construct kind name n parts rest _ ih => exact ⟨h.1, h.2.1, ih h.2.2⟩

/-- A property of lists of children that goes over to the rest of a list and to its first arm. -/
structure Inherited (P : Block L → Prop) : Prop where
  nil : P .nil
  firstArm : ∀ {b}, P b → P b.firstArm
  act : ∀ {a b}, P (.act a b) → P b
  ifStmt : ∀ {id cond a b}, P (.ifStmt id cond a b) → P b
  ifConstruct : ∀ {id name cond children b}, P (.ifConstruct id name cond children b) → P b
  elseIf : ∀ {cond b}, P (.elseIf cond b) → P b
  elseStmt : ∀ {b}, P (.elseStmt b) → P b
  construct : ∀ {kind name n parts b}, P (.construct kind name n parts b) → P b

namespace Inherited

variable {P : Block L → Prop} (hP : Inherited P)

include hP

theorem resolveFrom {b : Block L} (hb : P b) : P (Branches.resolveFrom fold b).block := by
  induction b with
  | nil => exact hP.nil
  | act a rest ih => exact ih (hP.act hb)
  | ifStmt id cond a rest ih => exact ih (hP.ifStmt hb)
  | ifConstruct id name cond children rest _ ih => exact ih (hP.ifConstruct hb)
  | elseIf cond rest ih =>
    rw [Branches.resolveFrom]
    split
    · exact hP.elseIf hb
    · exact hP.firstArm (hP.elseIf hb)
    · exact ih (hP.elseIf hb)
  | elseStmt rest ih => exact hP.elseStmt hb
  | construct kind name n parts rest _ ih => exact ih (hP.construct hb)

/-- It holds of what is left of a construct. -/
theorem resolve {cond : L.Cond} {b : Block L} {r : Resolved L}
    (hr : Branches.resolve fold cond b = r) (hb : P b) :
    P r.block := by
  rw [← hr, Branches.resolve]
  split
  · exact hb
  · exact hP.firstArm hb
  · exact hP.resolveFrom hb

end Inherited

theorem inherited_exitsInside (names : List L.Name) : Inherited (ExitsInside names) where
  nil := trivial
  firstArm := exitsInside_firstArm
  act h := h.2
  ifStmt h := h.2
  ifConstruct h := h.2
  elseIf h := h
  elseStmt h := h
  construct h := h.2

theorem inherited_namesApart (names : List L.Name) : Inherited (NamesApart names) where
  nil := trivial
  firstArm := namesApart_firstArm
  act h := h
  ifStmt h := h
  ifConstruct h := h.2.2
  elseIf h := h
  elseStmt h := h
  construct h := h.2.2

theorem notMem_toList_append {name : Option L.Name} (h : name ≠ some n)
    (hn : n ∉ names) : n ∉ name.toList ++ names := by
  intro hmem
  rcases mem_append.1 hmem with hmem | hmem
  · exact h (Option.mem_toList.1 hmem)
  · exact hn hmem

/-- An exit that is kept needs its construct. -/
theorem Pruned.not_exitsInside (h : Pruned fold b b') (hk : KeptExit fold n b)
    (hn : n ∉ names) : ¬ ExitsInside names b' := by
  induction h generalizing names with
  | nil => cases hk
  | act a h ih =>
    intro he
    cases hk with
    | act => exact hn (he.1 n rfl)
    | afterAct _ hk => exact ih hk hn he.2
  | ifStmt id a hc h ih =>
    intro he
    cases hk with
    | ifStmt => exact hn (he.1 n rfl)
    | afterIfStmt _ _ _ hk => exact ih hk hn he.2
  | ifStmtTrue id a hc h ih =>
    intro he
    cases hk with
    | ifStmt => exact hn (he.1 n rfl)
    | afterIfStmt _ _ _ hk => exact ih hk hn he.2
  | ifStmtFalse id a hc h ih =>
    intro he
    cases hk with
    | ifStmt _ _ hnot => exact hnot hc
    | afterIfStmt _ _ _ hk => exact ih hk hn he
  | keep hr hc h ihc ih =>
    intro he
    cases hk with
    | keep _ hname hr' hk =>
      rw [hr] at hr'
      obtain ⟨-, rfl⟩ := Resolved.keep.inj hr'
      exact ihc hk (notMem_toList_append hname hn) he.1
    | splice _ hr' hk =>
      rw [hr] at hr'
      cases hr'
    | afterIf _ _ _ _ hk => exact ih hk hn he.2
  | splice hr hc h ihc ih =>
    intro he
    obtain ⟨h₁, h₂⟩ := exitsInside_append.1 he
    cases hk with
    | keep _ hname hr' hk =>
      rw [hr] at hr'
      cases hr'
    | splice _ hr' hk =>
      rw [hr] at hr'
      obtain rfl := Resolved.splice.inj hr'
      exact ihc hk hn h₁
    | afterIf _ _ _ _ hk => exact ih hk hn h₂
  | elseIf cond h ih =>
    cases hk with
    | afterElseIf _ hk => exact ih hk hn
  | elseStmt h ih =>
    cases hk with
    | afterElse hk => exact ih hk hn
  | construct kind name hp h ihp ih =>
    intro he
    cases hk with
    | part _ j hname hk => exact ihp j hk (notMem_toList_append hname hn) (he.1 j)
    | afterConstruct _ _ _ _ hk => exact ih hk hn he.2

/-- **With an orphaned exit the pruned part is no program.** -/
theorem Pruned.not_exitsInside_of_orphaned (h : Pruned fold b b') (ho : Orphaned fold b)
    (hn : NamesApart names b) : ¬ ExitsInside names b' := by
  induction h generalizing names with
  | nil => cases ho
  | act a h ih =>
    intro he
    cases ho with
    | afterAct _ ho => exact ih ho hn he.2
  | ifStmt id a hc h ih =>
    intro he
    cases ho with
    | afterIfStmt _ _ _ ho => exact ih ho hn he.2
  | ifStmtTrue id a hc h ih =>
    intro he
    cases ho with
    | afterIfStmt _ _ _ ho => exact ih ho hn he.2
  | ifStmtFalse id a hc h ih =>
    intro he
    cases ho with
    | afterIfStmt _ _ _ ho => exact ih ho hn he
  | keep hr hc h ihc ih =>
    intro he
    cases ho with
    | here _ hr' _ =>
      rw [hr] at hr'
      cases hr'
    | keep _ hr' ho =>
      rw [hr] at hr'
      obtain ⟨-, rfl⟩ := Resolved.keep.inj hr'
      exact ihc ho ((inherited_namesApart _).resolve hr hn.2.1) he.1
    | splice _ hr' _ =>
      rw [hr] at hr'
      cases hr'
    | afterIf _ _ _ _ ho => exact ih ho hn.2.2 he.2
  | splice hr hc h ihc ih =>
    intro he
    obtain ⟨h₁, h₂⟩ := exitsInside_append.1 he
    cases ho with
    | here _ hr' hk =>
      rw [hr] at hr'
      obtain rfl := Resolved.splice.inj hr'
      exact hc.not_exitsInside hk (hn.1 _ rfl) h₁
    | keep _ hr' _ =>
      rw [hr] at hr'
      cases hr'
    | splice _ hr' ho =>
      rw [hr] at hr'
      obtain rfl := Resolved.splice.inj hr'
      exact ihc ho ((inherited_namesApart _).resolve hr hn.2.1)
        (exitsInside_mono (subset_append_right _ _) h₁)
    | afterIf _ _ _ _ ho => exact ih ho hn.2.2 h₂
  | elseIf cond h ih =>
    cases ho with
    | afterElseIf _ ho => exact ih ho hn
  | elseStmt h ih =>
    cases ho with
    | afterElse ho => exact ih ho hn
  | construct kind name hp h ihp ih =>
    intro he
    cases ho with
    | part _ j ho => exact ihp j ho (hn.2.1 j) (he.1 j)
    | afterConstruct _ _ _ _ ho => exact ih ho hn.2.2 he.2

/-- Without orphaned exits every exit that is left has its construct: the names that are gone are
not exited. -/
theorem Pruned.exitsInside (h : Pruned fold b b') (ho : ¬ Orphaned fold b)
    (hgone : ∀ n ∈ names, n ∉ names' → ¬ KeptExit fold n b) (hb : ExitsInside names b) :
    ExitsInside names' b' := by
  induction h generalizing names names' with
  | nil => trivial
  | act a h ih =>
    refine ⟨?_, ih (fun h => ho (.afterAct a h))
      (fun n hn hn' hk => hgone n hn hn' (.afterAct a hk)) hb.2⟩
    rintro n rfl
    by_contra hn'
    exact hgone n (hb.1 n rfl) hn' (.act _)
  | @ifStmt cond rest rest' id a hc h ih =>
    refine ⟨?_, ih (fun h => ho (.afterIfStmt id cond a h))
      (fun n hn hn' hk => hgone n hn hn' (.afterIfStmt id cond a hk)) hb.2⟩
    rintro n rfl
    by_contra hn'
    exact hgone n (hb.1 n rfl) hn' (.ifStmt id rest (by rw [hc]; exact nofun))
  | @ifStmtTrue cond rest rest' id a hc h ih =>
    refine ⟨?_, ih (fun h => ho (.afterIfStmt id cond a h))
      (fun n hn hn' hk => hgone n hn hn' (.afterIfStmt id cond a hk)) hb.2⟩
    rintro n rfl
    by_contra hn'
    exact hgone n (hb.1 n rfl) hn' (.ifStmt id rest (by rw [hc]; exact nofun))
  | @ifStmtFalse cond rest rest' id a hc h ih =>
    exact ih (fun h => ho (.afterIfStmt id cond a h))
      (fun n hn hn' hk => hgone n hn hn' (.afterIfStmt id cond a hk)) hb.2
  | @keep id name cond cond' children children' children'' rest rest' hr hc h ihc ih =>
    refine ⟨ihc (fun h => ho (.keep rest hr h)) ?_ ((inherited_exitsInside _).resolve hr hb.1),
      ih (fun h => ho (.afterIf id name cond children h))
        (fun n hn hn' hk => hgone n hn hn' (.afterIf id name cond children hk)) hb.2⟩
    intro n hn hn' hk
    have hname : name ≠ some n := fun h => hn' (mem_append_left _ (Option.mem_toList.2 h))
    have hmem : n ∈ names := (mem_append.1 hn).resolve_left fun h => hname (Option.mem_toList.1 h)
    exact hgone n hmem (fun h => hn' (mem_append_right _ h)) (.keep rest hname hr hk)
  | @splice id name cond children actions actions' rest rest' hr hc h ihc ih =>
    refine exitsInside_append.2
      ⟨ihc (fun h => ho (.splice rest hr h)) ?_ ((inherited_exitsInside _).resolve hr hb.1),
      ih (fun h => ho (.afterIf id name cond children h))
        (fun n hn hn' hk => hgone n hn hn' (.afterIf id name cond children hk)) hb.2⟩
    intro n hn hn' hk
    rcases mem_append.1 hn with hn | hn
    · obtain rfl : name = some n := Option.mem_toList.1 hn
      exact ho (.here rest hr hk)
    · exact hgone n hn hn' (.splice rest hr hk)
  | @elseIf rest rest' cond h ih =>
    exact ih (fun h => ho (.afterElseIf cond h))
      (fun n hn hn' hk => hgone n hn hn' (.afterElseIf cond hk)) hb
  | elseStmt h ih =>
    exact ih (fun h => ho (.afterElse h)) (fun n hn hn' hk => hgone n hn hn' (.afterElse hk)) hb
  | @construct m parts parts' rest rest' kind name hp h ihp ih =>
    refine ⟨fun j => ihp j (fun h => ho (.part rest j h)) ?_ (hb.1 j),
      ih (fun h => ho (.afterConstruct kind name m parts h))
        (fun n hn hn' hk => hgone n hn hn' (.afterConstruct kind name m parts hk)) hb.2⟩
    intro n hn hn' hk
    have hname : name ≠ some n := fun h => hn' (mem_append_left _ (Option.mem_toList.2 h))
    have hmem : n ∈ names := (mem_append.1 hn).resolve_left fun h => hname (Option.mem_toList.1 h)
    exact hgone n hmem (fun h => hn' (mem_append_right _ h)) (.part rest j hname hk)

/-! ## The pass -/

/-- **Exactly when `prune_branches` keeps the meaning**: no IF construct that it takes away has an
`EXIT` of its name in what is kept of it. -/
theorem pruneBranches_keepsMeaning_iff (fold : L.Cond → Option Bool) (p : ExecutionPart L) :
    KeepsMeaning fold p ↔ ¬ Orphaned fold p.block := by
  have hpruned : Pruned fold p.block (pruneBranches fold p.block) := pruned_pruneBranches p
  constructor
  · intro h ho
    exact hpruned.not_exitsInside_of_orphaned ho p.namesApart h.exitsInside
  · intro ho
    exact ⟨hpruned.exitsInside ho (fun n hn => absurd hn List.not_mem_nil) p.exitsInside,
      fun W hfold => (hpruned.equiv hfold p.wf ho).1, hpruned.noneFolds⟩

/-! ## A second run -/

/-- An IF construct whose condition does not fold stays as it is. -/
theorem pruneConstruct_of_noneFolds (h : NoneFolds fold b) (id : ℕ) :
    pruneConstruct fold id b = b := by
  induction b with
  | nil => rfl
  | act a rest ih => exact congrArg (Block.act a) (ih h)
  | ifStmt i cond a rest ih => exact congrArg (Block.ifStmt i cond a) (ih h.2)
  | ifConstruct i name cond children rest ihc ih =>
    rw [pruneConstruct, resolve, h.1, ihc h.2.1, ih h.2.2]
    split_ifs <;> rfl
  | elseIf cond rest ih => exact congrArg (Block.elseIf cond) (ih h)
  | elseStmt rest ih => exact congrArg Block.elseStmt (ih h)
  | construct kind name n parts rest ihp ih =>
    rw [pruneConstruct, ih h.2, funext fun j => ihp j (h.1 j)]

theorem pruneStmt_of_noneFolds (h : NoneFolds fold b) (id : ℕ) : pruneStmt fold id b = b := by
  induction b with
  | nil => rfl
  | act a rest ih => exact congrArg (Block.act a) (ih h)
  | ifStmt i cond a rest ih =>
    rw [pruneStmt, h.1, ih h.2]
    split_ifs <;> rfl
  | ifConstruct i name cond children rest ihc ih => rw [pruneStmt, ihc h.2.1, ih h.2.2]
  | elseIf cond rest ih => exact congrArg (Block.elseIf cond) (ih h)
  | elseStmt rest ih => exact congrArg Block.elseStmt (ih h)
  | construct kind name n parts rest ihp ih =>
    rw [pruneStmt, ih h.2, funext fun j => ihp j (h.1 j)]

/-- **A second run of `prune_branches` changes nothing.** -/
theorem pruneBranches_idem (fold : L.Cond → Option Bool) (p : ExecutionPart L) :
    pruneBranches fold (pruneBranches fold p.block) = pruneBranches fold p.block := by
  have hnone : NoneFolds fold (pruneBranches fold p.block) := (pruned_pruneBranches p).noneFolds
  have hconstructs : ∀ ids, pruneConstructs fold ids (pruneBranches fold p.block) =
      pruneBranches fold p.block :=
    fun ids => List.foldl_fixed' (pruneConstruct_of_noneFolds hnone) ids
  have hstmts : ∀ ids, pruneStmts fold ids (pruneBranches fold p.block) =
      pruneBranches fold p.block :=
    fun ids => List.foldl_fixed' (pruneStmt_of_noneFolds hnone) ids
  calc pruneBranches fold (pruneBranches fold p.block)
    _ = pruneStmts fold _ (pruneConstructs fold _ (pruneBranches fold p.block)) := rfl
    _ = pruneBranches fold p.block := by rw [hconstructs, hstmts]

/-! ## A named construct -/

/-- One action, one condition, one kind of construct and one name. -/
def unitLanguage : Language := ⟨Unit, Unit, Unit, Unit, inferInstance⟩

/-- `c: IF (.TRUE.) THEN; EXIT c; END IF` -/
def namedIf : ExecutionPart unitLanguage where
  block := .ifConstruct 0 (some ()) () (.act (.exit (some ())) .nil) .nil
  wf := ⟨trivial, trivial⟩
  constructIds_nodup := List.nodup_singleton 0
  exitsInside := ⟨⟨fun _ _ => List.mem_cons_self, trivial⟩, trivial⟩
  namesApart := ⟨fun _ _ => List.not_mem_nil, trivial, trivial⟩

/-- **The `EXIT` is left without its construct.** -/
theorem not_keepsMeaning_namedIf : ¬ KeepsMeaning (fun _ => some true) namedIf := by
  intro h
  have hexit : () ∈ ([] : List Unit) := h.exitsInside.1 () rfl
  exact absurd hexit List.not_mem_nil

end Branches
