/-
# The walk over the collected constructs

The constructs are collected in the order of the text, an outer one before those in it.  Each
finds its construct as it was, and what is left of an arm was cut once: the walk gives what
pruning from the outside in would give (`Pruned`).
-/
import DaceFortran.Branches.PruneBranches

open List

namespace Branches

variable {L : Language} {fold : L.Cond → Option Bool}

/-! ## Lists of children -/

namespace Block

theorem append_assoc (a b c : Block L) : (a.append b).append c = a.append (b.append c) := by
  induction a with
  | nil => rfl
  | act x rest ih => exact congrArg (act x) ih
  | ifStmt id cond x rest ih => exact congrArg (ifStmt id cond x) ih
  | ifConstruct id name cond children rest _ ih =>
      exact congrArg (ifConstruct id name cond children) ih
  | elseIf cond rest ih => exact congrArg (elseIf cond) ih
  | elseStmt rest ih => exact congrArg elseStmt ih
  | construct kind name n parts rest _ ih => exact congrArg (construct kind name n parts) ih

theorem constructIds_firstArm (b : Block L) : b.firstArm.constructIds <+: b.constructIds := by
  induction b with
  | nil => exact prefix_rfl
  | act x rest ih => exact ih
  | ifStmt id cond x rest ih => exact ih
  | ifConstruct id name cond children rest _ ih =>
    exact (prefix_cons_inj id).2 ((prefix_append_right_inj _).2 ih)
  | elseIf cond rest ih => exact nil_prefix
  | elseStmt rest ih => exact nil_prefix
  | construct kind name n parts rest _ ih => exact (prefix_append_right_inj _).2 ih

end Block

/-- The block that is left of a construct. -/
def Resolved.block : Resolved L → Block L
  | keep _ children => children
  | splice actions => actions

theorem resolveFrom_ids (b : Block L) :
    (resolveFrom fold b).block.constructIds <:+: b.constructIds := by
  induction b with
  | nil => exact infix_rfl
  | act x rest ih => exact ih
  | ifStmt id cond x rest ih => exact ih
  | ifConstruct id name cond children rest _ ih =>
    exact ih.trans ((suffix_append _ _).isInfix.trans (suffix_cons id _).isInfix)
  | elseIf cond rest ih =>
    rw [resolveFrom]
    split
    · exact infix_rfl
    · exact rest.constructIds_firstArm.isInfix
    · exact ih
  | elseStmt rest ih => exact infix_rfl
  | construct kind name n parts rest _ ih => exact ih.trans (suffix_append _ _).isInfix

/-- What is left of a construct has a stretch of its constructs. -/
theorem resolve_ids (cond : L.Cond) (b : Block L) :
    (resolve fold cond b).block.constructIds <:+: b.constructIds := by
  unfold resolve
  split
  · exact infix_rfl
  · exact b.constructIds_firstArm.isInfix
  · exact resolveFrom_ids b

/-! ## Pruning one construct -/

theorem pruneConstruct_append (id : ℕ) (a b : Block L) :
    pruneConstruct fold id (a.append b) =
      (pruneConstruct fold id a).append (pruneConstruct fold id b) := by
  induction a with
  | nil => rfl
  | act x rest ih => exact congrArg (Block.act x) ih
  | ifStmt i cond x rest ih => exact congrArg (Block.ifStmt i cond x) ih
  | ifConstruct i name cond children rest _ ih =>
    show pruneConstruct fold id (.ifConstruct i name cond children (rest.append b)) = _
    rw [pruneConstruct, pruneConstruct]
    split
    · cases resolve fold cond children with
      | keep cond' children' => exact congrArg (Block.ifConstruct i name cond' children') ih
      | splice actions =>
        simp only
        rw [ih, Block.append_assoc]
    · exact congrArg (Block.ifConstruct i name cond _) ih
  | elseIf cond rest ih => exact congrArg (Block.elseIf cond) ih
  | elseStmt rest ih => exact congrArg Block.elseStmt ih
  | construct kind name n parts rest _ ih => exact congrArg (Block.construct kind name n _) ih

variable {b : Block L} {ids : List ℕ} {name : Option L.Name}

/-- A construct that is not there is not pruned. -/
theorem pruneConstruct_of_notMem {id : ℕ} (h : id ∉ b.constructIds) :
    pruneConstruct fold id b = b := by
  induction b with
  | nil => rfl
  | act x rest ih => exact congrArg (Block.act x) (ih h)
  | ifStmt i cond x rest ih => exact congrArg (Block.ifStmt i cond x) (ih h)
  | ifConstruct i name cond children rest ihc ih =>
    simp only [Block.constructIds, mem_cons, mem_append, not_or] at h
    rw [pruneConstruct, if_neg (fun hi => h.1 hi.symm), ihc h.2.1, ih h.2.2]
  | elseIf cond rest ih => exact congrArg (Block.elseIf cond) (ih h)
  | elseStmt rest ih => exact congrArg Block.elseStmt (ih h)
  | construct kind name n parts rest ihp ih =>
    simp only [Block.constructIds, mem_append, mem_flatMap, mem_finRange, true_and, not_or,
      not_exists] at h
    rw [pruneConstruct, ih h.2]
    congr 1
    funext j
    exact ihp j (h.1 j)

/-! ## Pruning all of a list -/

theorem pruneConstructs_cons (id : ℕ) (ids : List ℕ) (b : Block L) :
    pruneConstructs fold (id :: ids) b = pruneConstructs fold ids (pruneConstruct fold id b) := rfl

theorem pruneConstructs_append (l m : List ℕ) (b : Block L) :
    pruneConstructs fold (l ++ m) b = pruneConstructs fold m (pruneConstructs fold l b) :=
  foldl_append

theorem pruneConstructs_of_disjoint (h : ∀ i ∈ ids, i ∉ b.constructIds) :
    pruneConstructs fold ids b = b := by
  induction ids with
  | nil => rfl
  | cons i ids ih =>
    rw [pruneConstructs_cons, pruneConstruct_of_notMem (h i mem_cons_self)]
    exact ih fun j hj => h j (mem_cons_of_mem i hj)

/-- A walk commutes with what each of its steps commutes with. -/
theorem pruneConstructs_congr {f : Block L → Block L}
    (h : ∀ i ∈ ids, ∀ b, pruneConstruct fold i (f b) = f (pruneConstruct fold i b)) (b : Block L) :
    pruneConstructs fold ids (f b) = f (pruneConstructs fold ids b) := by
  induction ids generalizing b with
  | nil => rfl
  | cons i ids ih =>
    rw [pruneConstructs_cons, pruneConstructs_cons, h i mem_cons_self]
    exact ih (fun j hj => h j (mem_cons_of_mem i hj)) _

theorem pruneConstructs_ifConstruct {i : ℕ} (hi : i ∉ ids) (name : Option L.Name) (cond : L.Cond)
    (children rest : Block L) : pruneConstructs fold ids (.ifConstruct i name cond children rest) =
      .ifConstruct i name cond (pruneConstructs fold ids children)
        (pruneConstructs fold ids rest) := by
  induction ids generalizing children rest with
  | nil => rfl
  | cons j ids ih =>
    have hij : i ≠ j := fun h => hi (h ▸ mem_cons_self)
    rw [pruneConstructs_cons, pruneConstruct, if_neg hij, ih fun h => hi (mem_cons_of_mem j h)]
    rfl

theorem pruneConstructs_construct (ids : List ℕ) (kind : L.Kind) (name : Option L.Name) (n : ℕ)
    (parts : Fin n → Block L) (rest : Block L) :
    pruneConstructs fold ids (.construct kind name n parts rest) =
      .construct kind name n (fun j => pruneConstructs fold ids (parts j))
        (pruneConstructs fold ids rest) := by
  induction ids generalizing parts rest with
  | nil => rfl
  | cons j ids ih =>
    rw [pruneConstructs_cons, pruneConstruct, ih]
    rfl

theorem pruneConstructs_blockAppend (ids : List ℕ) (a b : Block L) :
    pruneConstructs fold ids (a.append b) =
      (pruneConstructs fold ids a).append (pruneConstructs fold ids b) := by
  induction ids generalizing a b with
  | nil => rfl
  | cons j ids ih =>
    rw [pruneConstructs_cons, pruneConstruct_append, ih]
    rfl

/-! ## Pruning from the outside in -/

/-- The constructs pruned from the outside in: what is left of one is pruned in turn. -/
inductive ConstructsPruned (fold : L.Cond → Option Bool) : Block L → Block L → Prop where
  | nil : ConstructsPruned fold .nil .nil
  | act {rest rest' : Block L} (a : Act L) (h : ConstructsPruned fold rest rest') :
      ConstructsPruned fold (.act a rest) (.act a rest')
  | ifStmt {rest rest' : Block L} (id : ℕ) (cond : L.Cond) (a : Act L)
      (h : ConstructsPruned fold rest rest') :
      ConstructsPruned fold (.ifStmt id cond a rest) (.ifStmt id cond a rest')
  | keep {id : ℕ} {name : Option L.Name} {cond cond' : L.Cond}
      {children children' children'' rest rest' : Block L}
      (hr : resolve fold cond children = .keep cond' children')
        (hc : ConstructsPruned fold children' children'')
      (h : ConstructsPruned fold rest rest') :
      ConstructsPruned fold (.ifConstruct id name cond children rest)
        (.ifConstruct id name cond' children'' rest')
  | splice {id : ℕ} {name : Option L.Name} {cond : L.Cond}
      {children actions actions' rest rest' : Block L}
      (hr : resolve fold cond children = .splice actions)
        (hc : ConstructsPruned fold actions actions')
      (h : ConstructsPruned fold rest rest') :
      ConstructsPruned fold (.ifConstruct id name cond children rest) (actions'.append rest')
  | elseIf {rest rest' : Block L} (cond : L.Cond) (h : ConstructsPruned fold rest rest') :
      ConstructsPruned fold (.elseIf cond rest) (.elseIf cond rest')
  | elseStmt {rest rest' : Block L} (h : ConstructsPruned fold rest rest') :
      ConstructsPruned fold (.elseStmt rest) (.elseStmt rest')
  | construct {n : ℕ} {parts parts' : Fin n → Block L} {rest rest' : Block L} (kind : L.Kind)
      (name : Option L.Name)
      (hp : ∀ j, ConstructsPruned fold (parts j) (parts' j))
        (h : ConstructsPruned fold rest rest') :
      ConstructsPruned fold (.construct kind name n parts rest)
        (.construct kind name n parts' rest')

/-- A walk over a list with all constructs of the block in a row, each of them once, prunes it. -/
def Walked (fold : L.Cond → Option Bool) (b : Block L) : Prop :=
  ∀ ids : List ℕ, ids.Nodup → b.constructIds <:+: ids →
    ConstructsPruned fold b (pruneConstructs fold ids b)

/-- The steps before those of a block leave it as it is. -/
theorem walked_of_eq
    (h : ∀ after : List ℕ, (b.constructIds ++ after).Nodup →
      ConstructsPruned fold b (pruneConstructs fold (b.constructIds ++ after) b)) :
      Walked fold b := by
  rintro ids hids ⟨before, after, rfl⟩
  rw [append_assoc] at hids ⊢
  have hbefore : pruneConstructs fold before b = b := pruneConstructs_of_disjoint fun i hi hb =>
    (disjoint_of_nodup_append hids) hi (mem_append_left after hb)
  rw [pruneConstructs_append, hbefore]
  exact h after (nodup_append.1 hids).2.1

theorem walked_ifConstruct {id : ℕ} {cond : L.Cond} {children rest : Block L}
    (hc : Walked fold (resolve fold cond children).block) (hrest : Walked fold rest) :
    Walked fold (.ifConstruct id name cond children rest) := by
  apply walked_of_eq
  intro after hnodup
  simp only [Block.constructIds, cons_append] at hnodup ⊢
  obtain ⟨hid, hnodup⟩ := nodup_cons.1 hnodup
  have hin : (resolve fold cond children).block.constructIds <:+: children.constructIds :=
    resolve_ids cond children
  have hchildren := hc _ hnodup
    (hin.trans ((prefix_append _ _).isInfix.trans (prefix_append _ _).isInfix))
  have hrest' := hrest _ hnodup ((suffix_append _ _).isInfix.trans (prefix_append _ _).isInfix)
  rw [pruneConstructs_cons, pruneConstruct, if_pos rfl]
  have hidrest : id ∉ rest.constructIds := fun h => hid (mem_append_left _ (mem_append_right _ h))
  rw [pruneConstruct_of_notMem hidrest]
  cases hr : resolve fold cond children with
  | keep cond' children' =>
    rw [hr] at hchildren
    simp only
    rw [pruneConstructs_ifConstruct hid]
    exact .keep hr hchildren hrest'
  | splice actions =>
    rw [hr] at hchildren
    simp only
    rw [pruneConstructs_blockAppend]
    exact .splice hr hchildren hrest'

theorem walked_construct {kind : L.Kind} {n : ℕ} {parts : Fin n → Block L} {rest : Block L}
    (hp : ∀ j, Walked fold (parts j)) (hrest : Walked fold rest) :
    Walked fold (.construct kind name n parts rest) := by
  intro ids hids hin
  rw [pruneConstructs_construct]
  refine .construct kind name (fun j => hp j ids hids ?_)
    (hrest ids hids ((suffix_append _ _).isInfix.trans hin))
  refine List.IsInfix.trans ?_ ((prefix_append _ _).isInfix.trans hin)
  obtain ⟨before, after, hsplit⟩ := append_of_mem (mem_finRange j)
  rw [hsplit, flatMap_append, flatMap_cons]
  exact (prefix_append _ _).isInfix.trans (suffix_append _ _).isInfix

/-- A block is pruned by a walk, and so are its first arm and what a false condition before it
leaves. -/
theorem walked_all (b : Block L) :
    Walked fold b ∧ Walked fold b.firstArm ∧ Walked fold (resolveFrom fold b).block := by
  have hnil : Walked fold (.nil : Block L) := by
    intro ids _ _
    rw [pruneConstructs_of_disjoint fun i _ => not_mem_nil]
    exact .nil
  have hresolve : ∀ (cond : L.Cond) (b : Block L), Walked fold b → Walked fold b.firstArm →
      Walked fold (resolveFrom fold b).block → Walked fold (resolve fold cond b).block := by
    intro cond b hb hfirst hfrom
    unfold resolve
    split
    · exact hb
    · exact hfirst
    · exact hfrom
  have hact : ∀ (a : Act L) (rest : Block L), Walked fold rest → Walked fold (.act a rest) := by
    intro a rest h ids hids hin
    rw [pruneConstructs_congr (f := .act a) fun i _ b => rfl]
    exact .act a (h ids hids hin)
  have hifStmt : ∀ (id : ℕ) (cond : L.Cond) (a : Act L) (rest : Block L), Walked fold rest →
      Walked fold (.ifStmt id cond a rest) := by
    intro id cond a rest h ids hids hin
    rw [pruneConstructs_congr (f := .ifStmt id cond a) fun i _ b => rfl]
    exact .ifStmt id cond a (h ids hids hin)
  induction b with
  | nil => exact ⟨hnil, hnil, hnil⟩
  | act a rest ih => exact ⟨hact a rest ih.1, hact a _ ih.2.1, ih.2.2⟩
  | ifStmt id cond a rest ih =>
      exact ⟨hifStmt id cond a rest ih.1, hifStmt id cond a _ ih.2.1, ih.2.2⟩
  | ifConstruct id name cond children rest ihc ih =>
    have hc := hresolve cond children ihc.1 ihc.2.1 ihc.2.2
    exact ⟨walked_ifConstruct hc ih.1, walked_ifConstruct hc ih.2.1, ih.2.2⟩
  | elseIf cond rest ih =>
    refine ⟨?_, hnil, ?_⟩
    · intro ids hids hin
      rw [pruneConstructs_congr (f := .elseIf cond) fun i _ b => rfl]
      exact .elseIf cond (ih.1 ids hids hin)
    · rw [resolveFrom]
      split
      · exact ih.1
      · exact ih.2.1
      · exact ih.2.2
  | elseStmt rest ih =>
    refine ⟨?_, hnil, ih.1⟩
    intro ids hids hin
    rw [pruneConstructs_congr (f := .elseStmt) fun i _ b => rfl]
    exact .elseStmt (ih.1 ids hids hin)
  | construct kind name n parts rest ihp ih =>
    exact ⟨walked_construct (fun j => (ihp j).1) ih.1, walked_construct (fun j => (ihp j).1) ih.2.1,
      ih.2.2⟩

/-- **The walk over the collected constructs prunes from the outside in.** -/
theorem constructsPruned_walk (h : b.constructIds.Nodup) :
    ConstructsPruned fold b (pruneConstructs fold b.constructIds b) :=
  (walked_all b).1 _ h infix_rfl

end Branches

/-
# The executions of a pruned part

Two blocks are equivalent if they have the same executions; every constructor keeps this, and
a construct is equivalent to the arm that is always selected, if no `EXIT` of its name is kept
there.
-/

namespace Branches

variable {L : Language} {fold : L.Cond → Option Bool}

/-! ## The one-line IFs -/

/-- The one-line IFs pruned. -/
def stmtsPruned (fold : L.Cond → Option Bool) : Block L → Block L
  | .nil => .nil
  | .act a rest => .act a (stmtsPruned fold rest)
  | .ifStmt id cond a rest =>
    match fold cond with
    | none => .ifStmt id cond a (stmtsPruned fold rest)
    | some true => .act a (stmtsPruned fold rest)
    | some false => stmtsPruned fold rest
  | .ifConstruct id name cond children rest =>
    .ifConstruct id name cond (stmtsPruned fold children) (stmtsPruned fold rest)
  | .elseIf cond rest => .elseIf cond (stmtsPruned fold rest)
  | .elseStmt rest => .elseStmt (stmtsPruned fold rest)
  | .construct kind name n parts rest =>
    .construct kind name n (fun j => stmtsPruned fold (parts j)) (stmtsPruned fold rest)

theorem pruneStmts_cons (id : ℕ) (ids : List ℕ) (b : Block L) :
    pruneStmts fold (id :: ids) b = pruneStmts fold ids (pruneStmt fold id b) := rfl

/-- A walk commutes with what each of its steps commutes with. -/
theorem pruneStmts_congr {f : Block L → Block L}
    (h : ∀ i b, pruneStmt fold i (f b) = f (pruneStmt fold i b))
    (ids : List ℕ) (b : Block L) : pruneStmts fold ids (f b) = f (pruneStmts fold ids b) := by
  induction ids generalizing b with
  | nil => rfl
  | cons i ids ih =>
    rw [pruneStmts_cons, pruneStmts_cons, h]
    exact ih _

theorem pruneStmts_ifConstruct (ids : List ℕ) (id : ℕ) (name : Option L.Name) (cond : L.Cond)
    (children rest : Block L) : pruneStmts fold ids (.ifConstruct id name cond children rest) =
      .ifConstruct id name cond (pruneStmts fold ids children) (pruneStmts fold ids rest) := by
  induction ids generalizing children rest with
  | nil => rfl
  | cons i ids ih =>
    rw [pruneStmts_cons, pruneStmt, ih]
    rfl

theorem pruneStmts_construct (ids : List ℕ) (kind : L.Kind) (name : Option L.Name) (n : ℕ)
    (parts : Fin n → Block L) (rest : Block L) :
    pruneStmts fold ids (.construct kind name n parts rest) =
      .construct kind name n (fun j => pruneStmts fold ids (parts j))
        (pruneStmts fold ids rest) := by
  induction ids generalizing parts rest with
  | nil => rfl
  | cons i ids ih =>
    rw [pruneStmts_cons, pruneStmt, ih]
    rfl

variable {ids : List ℕ}

theorem pruneStmts_ifStmt_of_notMem {id : ℕ} (hid : id ∉ ids) (cond : L.Cond) (a : Act L)
    (rest : Block L) :
    pruneStmts fold ids (.ifStmt id cond a rest) =
      .ifStmt id cond a (pruneStmts fold ids rest) := by
  induction ids generalizing rest with
  | nil => rfl
  | cons i ids ih =>
    have hi : id ≠ i := fun h => hid (h ▸ mem_cons_self)
    rw [pruneStmts_cons, pruneStmt, if_neg hi, ih fun h => hid (mem_cons_of_mem i h)]
    rfl

theorem pruneStmts_ifStmt {id : ℕ} (hid : id ∈ ids) (cond : L.Cond) (a : Act L) (rest : Block L) :
    pruneStmts fold ids (.ifStmt id cond a rest) =
      match fold cond with
      | none => .ifStmt id cond a (pruneStmts fold ids rest)
      | some true => .act a (pruneStmts fold ids rest)
      | some false => pruneStmts fold ids rest := by
  induction ids generalizing rest with
  | nil => cases hid
  | cons i ids ih =>
    rw [pruneStmts_cons, pruneStmt]
    by_cases hi : id = i
    · rw [if_pos hi]
      cases hfold : fold cond with
      | none =>
        simp only
        by_cases hmem : id ∈ ids
        · rw [ih hmem, hfold]
          rfl
        · rw [pruneStmts_ifStmt_of_notMem hmem]
          rfl
      | some v =>
        cases v with
        | true => exact pruneStmts_congr (f := .act a) (fun _ _ => rfl) ids _
        | false => rfl
    · rw [if_neg hi, ih (mem_of_ne_of_mem hi hid)]
      rfl

/-- **The walk over the one-line IFs prunes them all.** -/
theorem pruneStmts_eq {b : Block L} (h : b.stmtIds ⊆ ids) :
    pruneStmts fold ids b = stmtsPruned fold b := by
  have hnil : ∀ l : List ℕ, pruneStmts fold l (.nil : Block L) = .nil := by
    intro l
    induction l with
    | nil => rfl
    | cons i l ih => exact ih
  induction b with
  | nil => exact hnil ids
  | act a rest ih =>
    rw [pruneStmts_congr (f := .act a) fun _ _ => rfl]
    exact congrArg (Block.act a) (ih h)
  | ifStmt id cond a rest ih =>
    obtain ⟨hid, hrest⟩ := cons_subset.1 h
    rw [pruneStmts_ifStmt hid, ih hrest]
    rfl
  | ifConstruct id name cond children rest ihc ih =>
    obtain ⟨hc, hrest⟩ := append_subset.1 h
    rw [pruneStmts_ifConstruct, ihc hc, ih hrest]
    rfl
  | elseIf cond rest ih =>
    rw [pruneStmts_congr (f := .elseIf cond) fun _ _ => rfl]
    exact congrArg (Block.elseIf cond) (ih h)
  | elseStmt rest ih =>
    rw [pruneStmts_congr (f := .elseStmt) fun _ _ => rfl]
    exact congrArg Block.elseStmt (ih h)
  | construct kind name n parts rest ihp ih =>
    obtain ⟨hp, hrest⟩ := append_subset.1 h
    rw [pruneStmts_construct, ih hrest]
    have hparts : (fun j => pruneStmts fold ids (parts j)) =
        fun j => stmtsPruned fold (parts j) := by
      funext j
      exact ihp j fun i hi => hp (mem_flatMap_of_mem (mem_finRange j) hi)
    rw [hparts]
    rfl

theorem stmtsPruned_append (a b : Block L) :
    stmtsPruned fold (a.append b) = (stmtsPruned fold a).append (stmtsPruned fold b) := by
  induction a with
  | nil => rfl
  | act x rest ih => exact congrArg (Block.act x) ih
  | ifStmt id cond x rest ih =>
    show stmtsPruned fold (.ifStmt id cond x (rest.append b)) = _
    rw [stmtsPruned, stmtsPruned]
    cases fold cond with
    | none => exact congrArg (Block.ifStmt id cond x) ih
    | some v =>
      cases v with
      | true => exact congrArg (Block.act x) ih
      | false => exact ih
  | ifConstruct id name cond children rest _ ih =>
      exact congrArg (Block.ifConstruct id name cond _) ih
  | elseIf cond rest ih => exact congrArg (Block.elseIf cond) ih
  | elseStmt rest ih => exact congrArg Block.elseStmt ih
  | construct kind name n parts rest _ ih => exact congrArg (Block.construct kind name n _) ih

/-! ## The whole pass -/

/-- Constructs and one-line IFs pruned, from the outside in. -/
inductive Pruned (fold : L.Cond → Option Bool) : Block L → Block L → Prop where
  | nil : Pruned fold .nil .nil
  | act {rest rest' : Block L} (a : Act L) (h : Pruned fold rest rest') : Pruned fold
      (.act a rest) (.act a rest')
  | ifStmt {cond : L.Cond} {rest rest' : Block L} (id : ℕ) (a : Act L) (hc : fold cond = none)
      (h : Pruned fold rest rest') : Pruned fold (.ifStmt id cond a rest) (.ifStmt id cond a rest')
  | ifStmtTrue {cond : L.Cond} {rest rest' : Block L} (id : ℕ) (a : Act L)
      (hc : fold cond = some true)
      (h : Pruned fold rest rest') : Pruned fold (.ifStmt id cond a rest) (.act a rest')
  | ifStmtFalse {cond : L.Cond} {rest rest' : Block L} (id : ℕ) (a : Act L)
      (hc : fold cond = some false)
      (h : Pruned fold rest rest') : Pruned fold (.ifStmt id cond a rest) rest'
  | keep {id : ℕ} {name : Option L.Name} {cond cond' : L.Cond}
      {children children' children'' rest rest' : Block L}
      (hr : resolve fold cond children = .keep cond' children')
        (hc : Pruned fold children' children'')
      (h : Pruned fold rest rest') :
      Pruned fold (.ifConstruct id name cond children rest)
        (.ifConstruct id name cond' children'' rest')
  | splice {id : ℕ} {name : Option L.Name} {cond : L.Cond}
      {children actions actions' rest rest' : Block L}
      (hr : resolve fold cond children = .splice actions) (hc : Pruned fold actions actions')
      (h : Pruned fold rest rest') : Pruned fold (.ifConstruct id name cond children rest)
        (actions'.append rest')
  | elseIf {rest rest' : Block L} (cond : L.Cond) (h : Pruned fold rest rest') :
      Pruned fold (.elseIf cond rest) (.elseIf cond rest')
  | elseStmt {rest rest' : Block L} (h : Pruned fold rest rest') : Pruned fold (.elseStmt rest)
      (.elseStmt rest')
  | construct {n : ℕ} {parts parts' : Fin n → Block L} {rest rest' : Block L} (kind : L.Kind)
      (name : Option L.Name)
      (hp : ∀ j, Pruned fold (parts j) (parts' j)) (h : Pruned fold rest rest') :
      Pruned fold (.construct kind name n parts rest) (.construct kind name n parts' rest')

theorem pruned_stmtsPruned {b b' : Block L} (h : ConstructsPruned fold b b') :
    Pruned fold b (stmtsPruned fold b') := by
  induction h with
  | nil => exact .nil
  | act a h ih => exact .act a ih
  | ifStmt id cond a h ih =>
    rw [stmtsPruned]
    split
    · next hc => exact .ifStmt id a hc ih
    · next hc => exact .ifStmtTrue id a hc ih
    · next hc => exact .ifStmtFalse id a hc ih
  | keep hr hc h ihc ih => exact .keep hr ihc ih
  | splice hr hc h ihc ih =>
    rw [stmtsPruned_append]
    exact .splice hr ihc ih
  | elseIf cond h ih => exact .elseIf cond ih
  | elseStmt h ih => exact .elseStmt ih
  | construct kind name hp h ihp ih => exact .construct kind name ihp ih

/-- **The pass prunes from the outside in.** -/
theorem pruned_pruneBranches (p : ExecutionPart L) :
    Pruned fold p.block (pruneBranches fold p.block) := by
  have h : Pruned fold p.block
      (stmtsPruned fold (pruneConstructs fold p.block.constructIds p.block)) :=
    pruned_stmtsPruned (constructsPruned_walk p.constructIds_nodup)
  unfold pruneBranches
  simp only
  rw [pruneStmts_eq fun i hi => hi]
  exact h

/-! ## No leading condition folds -/

theorem noneFolds_append {a b : Block L} (ha : NoneFolds fold a) (hb : NoneFolds fold b) :
    NoneFolds fold (a.append b) := by
  induction a with
  | nil => exact hb
  | act x rest ih => exact ih ha
  | ifStmt id cond x rest ih => exact ⟨ha.1, ih ha.2⟩
  | ifConstruct id name cond children rest _ ih => exact ⟨ha.1, ha.2.1, ih ha.2.2⟩
  | elseIf cond rest ih => exact ih ha
  | elseStmt rest ih => exact ih ha
  | construct kind name n parts rest _ ih => exact ⟨ha.1, ih ha.2⟩

theorem resolveFrom_keep {b : Block L} {cond : L.Cond} {children : Block L}
    (h : resolveFrom fold b = .keep cond children) : fold cond = none := by
  induction b with
  | nil => cases h
  | act x rest ih => exact ih h
  | ifStmt id c x rest ih => exact ih h
  | ifConstruct id name c ch rest _ ih => exact ih h
  | elseIf c rest ih =>
    rw [resolveFrom] at h
    split at h
    · next hc =>
      obtain ⟨rfl, -⟩ := Resolved.keep.inj h
      exact hc
    · cases h
    · exact ih h
  | elseStmt rest ih => cases h
  | construct kind name n parts rest _ ih => exact ih h

theorem resolve_keep {cond cond' : L.Cond} {b children : Block L}
    (h : resolve fold cond b = .keep cond' children) : fold cond' = none := by
  unfold resolve at h
  split at h
  · next hc =>
    obtain ⟨rfl, -⟩ := Resolved.keep.inj h
    exact hc
  · cases h
  · exact resolveFrom_keep h

theorem Pruned.noneFolds {b b' : Block L} (h : Pruned fold b b') : NoneFolds fold b' := by
  induction h with
  | nil => trivial
  | act a h ih => exact ih
  | ifStmt id a hc h ih => exact ⟨hc, ih⟩
  | ifStmtTrue id a hc h ih => exact ih
  | ifStmtFalse id a hc h ih => exact ih
  | keep hr hc h ihc ih => exact ⟨resolve_keep hr, ihc, ih⟩
  | splice hr hc h ihc ih => exact noneFolds_append ihc ih
  | elseIf cond h ih => exact ih
  | elseStmt h ih => exact ih
  | construct kind name hp h ihp ih => exact ⟨ihp, ih⟩

end Branches
