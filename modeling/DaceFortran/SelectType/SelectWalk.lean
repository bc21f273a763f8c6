/-
# `_resolve_select_type_on_dummy`

The SELECT TYPE constructs of a scope are collected before any of them is resolved.  The body
behind the chosen guard is parsed again from its text, so the constructs in it are new nodes,
and the names in it that are spelled like the associate name become the dummy.
-/
import Mathlib.Data.List.Infix
import Mathlib.Data.List.Nodup
import DaceFortran.SelectType.TypeGuards

open List

namespace SelectType

/-- A name where it is written: it refers to an entity of the scope, or names a component or an
argument keyword. -/
structure Occurrence (Name : Type) where
  name : Name
  reference : Bool
deriving DecidableEq

inductive Selector (Name : Type) where
  | name (x : Name)
  | expr (names : List (Occurrence Name))
deriving DecidableEq

/-- Where a SELECT TYPE construct stands in the source, and whether its node comes from a second
parse. -/
structure Node where
  place : ℕ
  reparsed : Bool
deriving DecidableEq

/-- The statements of a scope: a construct with names of its own is an `ASSOCIATE`, a `BLOCK`, an
internal procedure, one without is a loop, an `IF` or another one; each body of a SELECT TYPE is
that behind its guard. -/
inductive Block (Name : Type) where
  | nil
  | stmt (place : ℕ) (names : List (Occurrence Name)) (rest : Block Name)
  | construct (place : ℕ) (binds : List Name) (names : List (Occurrence Name)) (n : ℕ)
      (parts : Fin n → Block Name)
      (rest : Block Name)
  | selectType (node : Node) (assoc : Option Name) (selector : Selector Name) (n : ℕ)
      (guards : Fin n → Guard Name)
      (bodies : Fin n → Block Name) (rest : Block Name)

variable {Name : Type} [DecidableEq Name]

/-- The associate name of a construct, which is the selector where none is written. -/
def associates : Option Name → Selector Name → List Name
  | some s, _ => [s]
  | none, .name x => [x]
  | none, .expr _ => []

namespace Block

def append : Block Name → Block Name → Block Name
  | nil, b => b
  | stmt place names rest, b => stmt place names (rest.append b)
  | construct place binds names n parts rest, b =>
      construct place binds names n parts (rest.append b)
  | selectType node assoc selector n guards bodies rest, b =>
    selectType node assoc selector n guards bodies (rest.append b)

/-- `walk(scope, f03.Select_Type_Construct)`, of the nodes of the first parse. -/
def selectIds : Block Name → List ℕ
  | nil => []
  | stmt _ _ rest => rest.selectIds
  | construct _ _ _ n parts rest =>
      (List.finRange n).flatMap (fun j => (parts j).selectIds) ++ rest.selectIds
  | selectType node _ _ n _ bodies rest =>
    (if node.reparsed then [] else [node.place]) ++
      ((List.finRange n).flatMap (fun j => (bodies j).selectIds) ++ rest.selectIds)

/-- The places of all statements. -/
def places : Block Name → List ℕ
  | nil => []
  | stmt place _ rest => place :: rest.places
  | construct place _ _ n parts rest =>
      place :: ((List.finRange n).flatMap (fun j => (parts j).places) ++ rest.places)
  | selectType node _ _ n _ bodies rest =>
    node.place :: ((List.finRange n).flatMap (fun j => (bodies j).places) ++ rest.places)

/-- `_parse_exec` of the text of statements. -/
def parseExec : Block Name → Block Name
  | nil => nil
  | stmt place names rest => stmt place names rest.parseExec
  | construct place binds names n parts rest =>
    construct place binds names n (fun j => (parts j).parseExec) rest.parseExec
  | selectType node assoc selector n guards bodies rest =>
    selectType ⟨node.place, true⟩ assoc selector n guards
      (fun j => (bodies j).parseExec) rest.parseExec

end Block

/-- A name after `s` has been replaced by `d`. -/
def renamed (s d x : Name) : Name := if x = s then d else x

def Occurrence.rename (s d : Name) (o : Occurrence Name) : Occurrence Name :=
  ⟨renamed s d o.name, o.reference⟩

def Selector.rename (s d : Name) : Selector Name → Selector Name
  | .name x => .name (renamed s d x)
  | .expr names => .expr (names.map (Occurrence.rename s d))

/-- Every `Name` node that is spelled `s` is replaced by `d`. -/
def Block.rename (s d : Name) : Block Name → Block Name
  | .nil => .nil
  | .stmt place names rest => .stmt place (names.map (Occurrence.rename s d)) (rest.rename s d)
  | .construct place binds names n parts rest =>
    .construct place (binds.map (renamed s d)) (names.map (Occurrence.rename s d)) n
      (fun j => (parts j).rename s d) (rest.rename s d)
  | .selectType node assoc selector n guards bodies rest =>
    .selectType node (assoc.map (renamed s d)) (selector.rename s d) n guards
      (fun j => (bodies j).rename s d)
      (rest.rename s d)

/-- The statements that stand for a construct on the dummy. -/
def spliced (tinfos : List (Name × Option Name)) (dummy armType : Name)
    (assoc : Option Name) {n : ℕ}
    (guards : Fin n → Guard Name) (bodies : Fin n → Block Name) : Block Name :=
  match chooseGuard tinfos armType guards with
  | none => .nil
  | some j => match assoc with
    | none => (bodies j).parseExec
    | some s => (bodies j).parseExec.rename s dummy

section

variable (tinfos : List (Name × Option Name)) (dummy armType : Name)

/-- One turn of the loop, for the construct of the first parse at a place. -/
def resolveAt (place : ℕ) : Block Name → Block Name
  | .nil => .nil
  | .stmt p names rest => .stmt p names (resolveAt place rest)
  | .construct p binds names n parts rest =>
    .construct p binds names n (fun j => resolveAt place (parts j)) (resolveAt place rest)
  | .selectType node assoc selector n guards bodies rest =>
    if node = ⟨place, false⟩ ∧ selector = .name dummy then
      (spliced tinfos dummy armType assoc guards bodies).append (resolveAt place rest)
    else
      .selectType node assoc selector n guards (fun j => resolveAt place (bodies j))
        (resolveAt place rest)

/-- The loop over the collected constructs. -/
def resolveAll (ids : List ℕ) (b : Block Name) : Block Name :=
  ids.foldl (fun t id => resolveAt tinfos dummy armType id t) b

/-- `_resolve_select_type_on_dummy` -/
def resolveSelectTypeOnDummy (scope : Block Name) : Block Name :=
  resolveAll tinfos dummy armType scope.selectIds scope

end

/-! ## What a program refers to -/

/-- An entity: one of the procedure, by its name, or one that a construct declares. -/
inductive Entity (Name : Type) where
  | outer (x : Name)
  | inner (place k : ℕ)

/-- The names inside of a construct. -/
def bind (env : Name → Entity Name) (place : ℕ) (binds : List Name) (x : Name) : Entity Name :=
  if x ∈ binds then .inner place (binds.idxOf x) else env x

/-- What is written for an entity, or the name of a component or keyword. -/
inductive Use (Name : Type) where
  | entity (e : Entity Name)
  | member (x : Name)

def Occurrence.use (env : Name → Entity Name) (o : Occurrence Name) : Use Name :=
  if o.reference then .entity (env o.name) else .member o.name

/-- A selector with what it refers to. -/
inductive SelectorUse (Name : Type) where
  | entity (e : Entity Name)
  | expr (uses : List (Use Name))

def Selector.use (env : Name → Entity Name) : Selector Name → SelectorUse Name
  | .name x => .entity (env x)
  | .expr names => .expr (names.map (Occurrence.use env))

/-- The statements of a scope with what each refers to; `apart` says that a construct declares no
name twice. -/
inductive Denoted (Name : Type) where
  | nil
  | stmt (place : ℕ) (uses : List (Use Name)) (rest : Denoted Name)
  | construct (place : ℕ) (apart : Bool) (uses : List (Use Name)) (n : ℕ) (parts : Fin n →
      Denoted Name)
      (rest : Denoted Name)
  | selectType (place : ℕ) (selector : SelectorUse Name) (n : ℕ) (guards : Fin n → Guard Name)
      (bodies : Fin n → Denoted Name) (rest : Denoted Name)

namespace Denoted

def append : Denoted Name → Denoted Name → Denoted Name
  | nil, b => b
  | stmt place uses rest, b => stmt place uses (rest.append b)
  | construct place apart uses n parts rest, b => construct place apart uses n parts (rest.append b)
  | selectType place selector n guards bodies rest, b =>
      selectType place selector n guards bodies (rest.append b)

end Denoted

/-- The statements with what each refers to, in a scope. -/
def denote (env : Name → Entity Name) : Block Name → Denoted Name
  | .nil => .nil
  | .stmt place names rest => .stmt place (names.map (Occurrence.use env)) (denote env rest)
  | .construct place binds names n parts rest =>
    .construct place (decide binds.Nodup) (names.map (Occurrence.use env)) n
      (fun j => denote (bind env place binds) (parts j)) (denote env rest)
  | .selectType node assoc selector n guards bodies rest =>
    .selectType node.place (selector.use env) n guards
      (fun j => denote (bind env node.place (associates assoc selector)) (bodies j))
        (denote env rest)

/-- The names in a body of a construct on the dummy: the associate name is the dummy. -/
def withAssociate (env : Name → Entity Name) (dummy : Name) : Option Name → Name → Entity Name
  | none => env
  | some s => Function.update env s (.outer dummy)

/-- The selector is the dummy, under any name. -/
def OnDummy (env : Name → Entity Name) (dummy : Name) : Selector Name → Prop
  | .name x => env x = .outer dummy
  | .expr _ => False

open Classical in
/-- **What is to become of a scope**: a SELECT TYPE on the dummy, wherever it is, is the body of the
guard that is selected, in which the associate name is the dummy, and everything else is what it
was. -/
noncomputable def resolved (dummy : Name) (select : ∀ n, (Fin n → Guard Name) → Option (Fin n))
    (env : Name → Entity Name) : Block Name → Denoted Name
  | .nil => .nil
  | .stmt place names rest =>
      .stmt place (names.map (Occurrence.use env)) (resolved dummy select env rest)
  | .construct place binds names n parts rest =>
    .construct place (decide binds.Nodup) (names.map (Occurrence.use env)) n
      (fun j => resolved dummy select (bind env place binds) (parts j))
        (resolved dummy select env rest)
  | .selectType node assoc selector n guards bodies rest =>
    if OnDummy env dummy selector then
      match select n guards with
      | none => resolved dummy select env rest
      | some j => (resolved dummy select (withAssociate env dummy assoc) (bodies j)).append
          (resolved dummy select env rest)
    else
      .selectType node.place (selector.use env) n guards
        (fun j => resolved dummy select (bind env node.place (associates assoc selector))
          (bodies j))
        (resolved dummy select env rest)

/-- No SELECT TYPE on the dummy is left. -/
def NoneLeft (dummy : Name) : Denoted Name → Prop
  | .nil => True
  | .stmt _ _ rest => NoneLeft dummy rest
  | .construct _ _ _ _ parts rest => (∀ j, NoneLeft dummy (parts j)) ∧ NoneLeft dummy rest
  | .selectType _ selector _ _ bodies rest =>
    selector ≠ .entity (.outer dummy) ∧ (∀ j, NoneLeft dummy (bodies j)) ∧ NoneLeft dummy rest

/-- A scope as it is parsed first: every statement has a place of its own, no construct declares a
name twice and no SELECT TYPE has a guard twice. -/
def WellFormed : Block Name → Prop
  | .nil => True
  | .stmt _ _ rest => WellFormed rest
  | .construct _ binds _ _ parts rest => binds.Nodup ∧ (∀ j, WellFormed (parts j)) ∧ WellFormed rest
  | .selectType node _ _ _ guards bodies rest =>
    node.reparsed = false ∧ Function.Injective guards ∧
      (∀ j, WellFormed (bodies j)) ∧ WellFormed rest

structure Scope (Name : Type) [DecidableEq Name] where
  block : Block Name
  places_nodup : block.places.Nodup
  wf : WellFormed block

/-- **The pass picks Fortran's branch everywhere**, and no SELECT TYPE on the dummy remains. -/
def PicksBranches (T : TypeTable Name) (dummy armType : Name) (scope : Scope Name) : Prop :=
  ∀ select : ∀ n, (Fin n → Guard Name) → Option (Fin n),
    (∀ n (guards : Fin n → Guard Name), Function.Injective guards →
      Selects T.tinfos armType guards (select n guards)) →
      denote .outer (resolveSelectTypeOnDummy T.tinfos dummy armType scope.block) =
          resolved dummy select .outer scope.block ∧
        NoneLeft dummy (denote .outer (resolveSelectTypeOnDummy T.tinfos dummy armType scope.block))

-- the equations, made once for the proofs
attribute [local simp] resolveAt Block.selectIds Block.parseExec Block.rename

end SelectType

/-
# The walk over the collected constructs

The nodes of a second parse are never collected, so the walk resolves each construct on the
dummy that is in no other one, and what is spliced in its place stays as it is.
-/

namespace SelectType

variable {Name : Type} [DecidableEq Name] {tinfos : List (Name × Option Name)}
    {dummy armType : Name}

/-! ## What the walk makes of a scope -/

/-- The outermost constructs on the dummy's name are spliced. -/
def resolveOuter (tinfos : List (Name × Option Name)) (dummy armType : Name) :
    Block Name → Block Name
  | .nil => .nil
  | .stmt p names rest => .stmt p names (resolveOuter tinfos dummy armType rest)
  | .construct p binds names n parts rest =>
    .construct p binds names n (fun j => resolveOuter tinfos dummy armType (parts j))
      (resolveOuter tinfos dummy armType rest)
  | .selectType node assoc selector n guards bodies rest =>
    if node.reparsed = false ∧ selector = .name dummy then
      (spliced tinfos dummy armType assoc guards bodies).append
        (resolveOuter tinfos dummy armType rest)
    else
      .selectType node assoc selector n guards
        (fun j => resolveOuter tinfos dummy armType (bodies j))
        (resolveOuter tinfos dummy armType rest)

/-! ## Nodes of a second parse -/

omit [DecidableEq Name] in
@[simp] theorem Block.selectIds_parseExec (b : Block Name) : b.parseExec.selectIds = [] := by
  induction b with
  | nil => rfl
  | stmt place names rest ih => exact ih
  | construct place binds names n parts rest ihp ih =>
      simp [Block.parseExec, Block.selectIds, ihp, ih]
  | selectType node assoc selector n guards bodies rest ihp ih =>
      simp [Block.parseExec, Block.selectIds, ihp, ih]

@[simp] theorem Block.selectIds_rename (s d : Name) (b : Block Name) :
    (b.rename s d).selectIds = b.selectIds := by
  induction b with
  | nil => rfl
  | stmt place names rest ih => exact ih
  | construct place binds names n parts rest ihp ih => simp [Block.rename, Block.selectIds, ihp, ih]
  | selectType node assoc selector n guards bodies rest ihp ih =>
      simp [Block.rename, Block.selectIds, ihp, ih]

/-- What is spliced has no construct of the first parse. -/
@[simp] theorem selectIds_spliced (assoc : Option Name) {n : ℕ} (guards : Fin n → Guard Name)
    (bodies : Fin n → Block Name) :
    (spliced tinfos dummy armType assoc guards bodies).selectIds = [] := by
  unfold spliced
  split
  · rfl
  · split
    · exact Block.selectIds_parseExec _
    · rw [Block.selectIds_rename, Block.selectIds_parseExec]

/-! ## One turn -/

theorem resolveAt_append (id : ℕ) (a b : Block Name) :
    resolveAt tinfos dummy armType id (a.append b) =
    (resolveAt tinfos dummy armType id a).append (resolveAt tinfos dummy armType id b) := by
  have hassoc : ∀ a b c : Block Name, (a.append b).append c = a.append (b.append c) := by
    intro a b c
    induction a with
    | nil => rfl
    | stmt place names rest ih => exact congrArg _ ih
    | construct place binds names n parts rest _ ih => exact congrArg _ ih
    | selectType node assoc selector n guards bodies rest _ ih => exact congrArg _ ih
  induction a with
  | nil => rfl
  | stmt place names rest ih => exact congrArg _ ih
  | construct place binds names n parts rest _ ih => exact congrArg _ ih
  | selectType node assoc selector n guards bodies rest _ ih =>
    simp only [Block.append, resolveAt]
    split
    · rw [ih, hassoc]
    · rw [ih, Block.append]

variable {b : Block Name} {ids : List ℕ}

/-- A turn for a construct that is not there changes nothing. -/
theorem resolveAt_of_notMem {id : ℕ} (h : id ∉ b.selectIds) :
    resolveAt tinfos dummy armType id b = b := by
  induction b with
  | nil => rfl
  | stmt place names rest ih => exact congrArg _ (ih h)
  | construct place binds names n parts rest ihp ih =>
    rw [Block.selectIds, mem_append, not_or, mem_flatMap, not_exists] at h
    rw [resolveAt, ih h.2]
    congr 1
    funext j
    exact ihp j fun hj => h.1 j ⟨mem_finRange j, hj⟩
  | selectType node assoc selector n guards bodies rest ihp ih =>
    rw [Block.selectIds, mem_append, not_or, mem_append, not_or, mem_flatMap, not_exists] at h
    have hnode : ¬ (node = ⟨id, false⟩ ∧ selector = .name dummy) := by
      rintro ⟨rfl, -⟩
      exact h.1 (by simp)
    rw [resolveAt, if_neg hnode, ih h.2.2]
    congr 1
    funext j
    exact ihp j fun hj => h.2.1 j ⟨mem_finRange j, hj⟩

/-! ## All turns -/

theorem resolveAll_append (before after : List ℕ) (b : Block Name) :
    resolveAll tinfos dummy armType (before ++ after) b =
      resolveAll tinfos dummy armType after (resolveAll tinfos dummy armType before b) :=
        foldl_append

theorem resolveAll_of_disjoint (h : ∀ id ∈ ids, id ∉ b.selectIds) :
    resolveAll tinfos dummy armType ids b = b := by
  induction ids with
  | nil => rfl
  | cons id ids ih =>
    rw [resolveAll, foldl_cons, resolveAt_of_notMem (h id mem_cons_self)]
    exact ih fun i hi => h i (mem_cons_of_mem id hi)

theorem resolveAll_blockAppend (ids : List ℕ) (a b : Block Name) :
    resolveAll tinfos dummy armType ids (a.append b) =
    (resolveAll tinfos dummy armType ids a).append (resolveAll tinfos dummy armType ids b) := by
  induction ids generalizing a b with
  | nil => rfl
  | cons id ids ih =>
    rw [resolveAll, foldl_cons, resolveAt_append]
    exact ih _ _

theorem resolveAll_stmt (ids : List ℕ) (place : ℕ) (names : List (Occurrence Name))
    (rest : Block Name) :
    resolveAll tinfos dummy armType ids (.stmt place names rest) =
      .stmt place names (resolveAll tinfos dummy armType ids rest) := by
  induction ids generalizing rest with
  | nil => rfl
  | cons id ids ih =>
    rw [resolveAll, foldl_cons, resolveAt]
    exact ih _

theorem resolveAll_construct (ids : List ℕ) (place : ℕ) (binds : List Name)
    (names : List (Occurrence Name)) (n : ℕ)
    (parts : Fin n → Block Name) (rest : Block Name) :
    resolveAll tinfos dummy armType ids (.construct place binds names n parts rest) =
      .construct place binds names n (fun j => resolveAll tinfos dummy armType ids (parts j))
        (resolveAll tinfos dummy armType ids rest) := by
  induction ids generalizing parts rest with
  | nil => rfl
  | cons id ids ih =>
    rw [resolveAll, foldl_cons, resolveAt]
    exact ih _ _

/-- A construct that no turn is for stays, and the turns go on in its bodies. -/
theorem resolveAll_selectType {node : Node} {assoc : Option Name} {selector : Selector Name} {n : ℕ}
    {guards : Fin n → Guard Name} (h : ∀ id ∈ ids, ¬ (node = ⟨id, false⟩ ∧ selector = .name dummy))
    (bodies : Fin n → Block Name) (rest : Block Name) :
    resolveAll tinfos dummy armType ids (.selectType node assoc selector n guards bodies rest) =
      .selectType node assoc selector n guards
        (fun j => resolveAll tinfos dummy armType ids (bodies j))
        (resolveAll tinfos dummy armType ids rest) := by
  induction ids generalizing bodies rest with
  | nil => rfl
  | cons id ids ih =>
    rw [resolveAll, foldl_cons, resolveAt, if_neg (h id mem_cons_self)]
    exact ih (fun i hi => h i (mem_cons_of_mem id hi)) _ _

/-- The constructs of a part are in a row among those of all parts. -/
theorem isInfix_flatMap {n : ℕ} (f : Fin n → List ℕ) (j : Fin n) :
    f j <:+: (List.finRange n).flatMap f := by
  obtain ⟨before, after, hsplit⟩ := append_of_mem (mem_finRange j)
  rw [hsplit, flatMap_append, flatMap_cons]
  exact (prefix_append _ _).isInfix.trans (suffix_append _ _).isInfix

/-- A walk over a list with all constructs of the block in a row, each of them once. -/
theorem resolveAll_eq (hids : ids.Nodup) (hin : b.selectIds <:+: ids) :
    resolveAll tinfos dummy armType ids b = resolveOuter tinfos dummy armType b := by
  induction b generalizing ids with
  | nil => exact resolveAll_of_disjoint fun _ _ => not_mem_nil
  | stmt place names rest ih => rw [resolveAll_stmt, ih hids hin, resolveOuter]
  | construct place binds names n parts rest ihp ih =>
    rw [resolveAll_construct, ih hids ((suffix_append _ _).isInfix.trans hin), resolveOuter]
    congr 1
    funext j
    exact ihp j hids ((isInfix_flatMap _ j).trans ((prefix_append _ _).isInfix.trans hin))
  | selectType node assoc selector n guards bodies rest ihp ih =>
    by_cases hd : node.reparsed = false ∧ selector = .name dummy
    · -- the turns before leave the construct alone, its own splices, those for its bodies find none
      obtain ⟨before, after, rfl⟩ := hin
      obtain ⟨hre, rfl⟩ := hd
      have hnode : node = ⟨node.place, false⟩ := by rw [← hre]
      rw [Block.selectIds, hre] at hids ⊢
      simp only [Bool.false_eq_true, if_false, cons_append, nil_append, append_assoc] at hids ⊢
      have hbefore : resolveAll tinfos dummy armType before
          (.selectType node assoc (.name dummy) n guards bodies rest) =
            .selectType node assoc (.name dummy) n guards bodies rest := by
        refine resolveAll_of_disjoint fun id hid hmem => ?_
        rw [Block.selectIds, hre] at hmem
        simp only [Bool.false_eq_true, if_false, cons_append, nil_append] at hmem
        exact disjoint_of_nodup_append hids hid
          (by rw [← append_assoc, ← cons_append]; exact mem_append_left after hmem)
      obtain ⟨hplace, hids'⟩ := nodup_cons.1 (nodup_append.1 hids).2.1
      rw [resolveAll_append, hbefore, resolveAll, foldl_cons, resolveAt, if_pos ⟨hnode, rfl⟩,
        resolveAt_of_notMem (fun h => hplace (by simp [h]))]
      rw [← resolveAll, resolveAll_blockAppend, resolveAll_of_disjoint (by simp), resolveOuter,
        if_pos ⟨hre, rfl⟩]
      congr 1
      refine ih hids' ?_
      exact (prefix_append _ _).isInfix.trans (suffix_append _ _).isInfix
    · have hkeep : ∀ id ∈ ids, ¬ (node = ⟨id, false⟩ ∧ selector = .name dummy) := by
        rintro id - ⟨rfl, hs⟩
        exact hd ⟨rfl, hs⟩
      rw [resolveAll_selectType hkeep, resolveOuter, if_neg hd]
      have hin' := (suffix_append _ _).isInfix.trans hin
      rw [ih hids ((suffix_append _ _).isInfix.trans hin')]
      congr 1
      funext j
      exact ihp j hids ((isInfix_flatMap _ j).trans ((prefix_append _ _).isInfix.trans hin'))

omit [DecidableEq Name] in
/-- The places of the collected constructs are places of the scope. -/
theorem selectIds_sublist (b : Block Name) : b.selectIds.Sublist b.places := by
  have hflat : ∀ {n : ℕ} (l : List (Fin n)) {f g : Fin n → List ℕ}, (∀ j, (f j).Sublist (g j)) →
      (l.flatMap f).Sublist (l.flatMap g) := by
    intro n l f g h
    induction l with
    | nil => exact List.Sublist.slnil
    | cons j l ih => exact (h j).append ih
  induction b with
  | nil => exact List.Sublist.slnil
  | stmt place names rest ih => exact ih.cons place
  | construct place binds names n parts rest ihp ih => exact ((hflat _ ihp).append ih).cons place
  | selectType node assoc selector n guards bodies rest ihp ih =>
    rw [Block.selectIds, Block.places]
    split
    · exact ((hflat _ ihp).append ih).cons node.place
    · exact ((hflat _ ihp).append ih).cons_cons node.place

/-- **The pass resolves the outermost constructs on the dummy's name.** -/
theorem resolveSelectTypeOnDummy_eq (scope : Scope Name) :
    resolveSelectTypeOnDummy tinfos dummy armType scope.block =
      resolveOuter tinfos dummy armType scope.block :=
  resolveAll_eq (scope.places_nodup.sublist (selectIds_sublist _)) infix_rfl

end SelectType
