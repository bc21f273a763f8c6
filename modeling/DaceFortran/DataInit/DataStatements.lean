/-
# `convert_data_statements_into_assignments`

A set of a `DATA` statement has a list of objects and a list of values with repeat counts.
The pass pairs the two lists as they are written, or, for one object with several values, makes
the object's elements `1, 2, ...` of it; each pair becomes an assignment in front of the
execution part.
-/
import Mathlib.Data.List.Nodup
import Mathlib.Algebra.Order.Ring.Int
import DaceFortran.Lib.Fallible

open List

namespace DataInit

/-- A subscript with the values that its constant expressions have. -/
inductive Subscript where
  | index (i : ℤ)
  | triplet (lo hi step : Option ℤ)
deriving DecidableEq

/-- A variable, or an element or a section of it. -/
structure DataObject (Var : Type) where
  var : Var
  subscripts : Option (List Subscript)

/-- A value with its repeat count. -/
structure DataValue (Literal : Type) where
  repeated : Option ℕ
  elem : Literal

/-- `objects / values /` -/
structure DataSet (Var Literal : Type) where
  objects : List (DataObject Var)
  values : List (DataValue Literal)

/-- `var(subscripts) = elem`, or `var = elem`. -/
structure Assignment (Var Literal : Type) where
  var : Var
  subscripts : Option (List Subscript)
  elem : Literal
deriving DecidableEq

/-- What a scope may be. -/
inductive Box where
  | procedure (execution : Bool)
  | module
deriving DecidableEq

/-- A scope: the bounds of its variables, the variables that have `SAVE` or an initialiser of their
own, and its `DATA` statements. -/
structure DataScope (Var Literal : Type) where
  box : Box
  bounds : Var → List (ℤ × ℤ)
  saved : Var → Bool
  statements : List (List (DataSet Var Literal))

variable {Var Literal : Type}

/-! ## The pass -/

section

variable (bounds : Var → List (ℤ × ℤ))

/-- The objects of a set: one with several values is taken apart. -/
def expandObjects (s : DataSet Var Literal) : Option (List (DataObject Var)) :=
  if s.objects.length ≠ s.values.length then
    match s.objects with
    -- a section with a subscript behind it is no designator
    | [⟨x, none⟩] => some ((List.range s.values.length).map fun (i : ℕ) => ⟨x,
        some [.index (i + 1)]⟩)
    | _ => none
  else some s.objects

/-- The assignment for an object and a value: the repeat count is read and must not be zero. -/
def assignmentOf (k : DataObject Var) (v : DataValue Literal) : Option (Assignment Var Literal) :=
  if v.repeated = some 0 then none
  else if bounds k.var ≠ [] then
    match k.subscripts with
    | some subscripts => some ⟨k.var, some subscripts, v.elem⟩
    | none => some ⟨k.var, some ((bounds k.var).map fun _ => .triplet none none none), v.elem⟩
  else
    match k.subscripts with
    | some _ => none
    | none => some ⟨k.var, none, v.elem⟩

/-- The assignments of one set. -/
def convertSet (s : DataSet Var Literal) : Option (List (Assignment Var Literal)) :=
  (expandObjects s).bind fun objects =>
    (objects.zip s.values).mapM fun kv => assignmentOf bounds kv.1 kv.2

/-- The assignments of one statement. -/
def convertStatement (sets : List (DataSet Var Literal)) : Option (List (Assignment Var Literal)) :=
  (sets.mapM (convertSet bounds)).map List.flatten

end

/-- `convert_data_statements_into_assignments` of one scope: the statements are taken from the last
to the first, and the assignments of each are put in front of those that are there. -/
def convertDataStatements (d : DataScope Var Literal) : Option (List (Assignment Var Literal)) :=
  d.statements.reverse.foldlM (fun execution sets =>
    (convertStatement d.bounds sets).map fun repls =>
      if d.box = .procedure true then repls ++ execution else execution) []

/-! ## Elements -/

/-- The values of a subscript for a dimension. -/
def Subscript.values (dim : ℤ × ℤ) : Subscript → List ℤ
  | .index i => [i]
  | .triplet lo hi step =>
    let first := lo.getD dim.1
    let by_ := step.getD 1
    (List.range ((hi.getD dim.2 - first + by_) / by_).toNat).map fun (k : ℕ) => first + k * by_

/-- The tuples of subscript values in array element order: the first varies fastest. -/
def tuples : List (List ℤ) → List (List ℤ)
  | [] => [[]]
  | l :: ls => (tuples ls).flatMap fun rest => l.map fun i => i :: rest

/-- The subscript values of an array's elements. -/
def wholeTuples (dims : List (ℤ × ℤ)) : List (List ℤ) :=
  tuples (dims.map fun dim => (List.range (dim.2 - dim.1 + 1).toNat).map fun (k : ℕ) => dim.1 + k)

/-- The subscript values of what subscripts designate. -/
def subscriptedTuples (dims : List (ℤ × ℤ)) (subscripts : List Subscript) : List (List ℤ) :=
  tuples (List.zipWith (fun dim s => s.values dim) dims subscripts)

/-- The elements that a designator has, if it is one. -/
def designated (bounds : Var → List (ℤ × ℤ)) (x : Var) : Option (List Subscript) →
    Option (List (Var × List ℤ))
  | none => some ((wholeTuples (bounds x)).map fun t => (x, t))
  | some subscripts =>
    -- as many subscripts as dimensions, and all elements there are
    if subscripts.length = (bounds x).length ∧ subscriptedTuples (bounds x) subscripts ⊆
      wholeTuples (bounds x) then
      some ((subscriptedTuples (bounds x) subscripts).map fun t => (x, t))
    else none

/-! ## What `DATA` gives -/

/-- The constants of a value list, each as often as its repeat count says. -/
def expandValues (values : List (DataValue Literal)) : List Literal :=
  values.flatMap fun v => List.replicate (v.repeated.getD 1) v.elem

/-- The elements of the objects in their order. -/
def objectElements (bounds : Var → List (ℤ × ℤ)) (objects : List (DataObject Var)) :
    Option (List (Var × List ℤ)) :=
  (objects.mapM fun k => designated bounds k.var k.subscripts).map List.flatten

/-- The elements that a set initialises, with their constants. -/
def setValues (bounds : Var → List (ℤ × ℤ)) (s : DataSet Var Literal) :
    List ((Var × List ℤ) × Literal) :=
  ((objectElements bounds s.objects).getD []).zip (expandValues s.values)

def DataScope.sets (d : DataScope Var Literal) : List (DataSet Var Literal) := d.statements.flatten

/-- The elements that a scope initialises, with their constants. -/
def DataScope.values (d : DataScope Var Literal) : List ((Var × List ℤ) × Literal) :=
  d.sets.flatMap (setValues d.bounds)

/-- The `DATA` statements are as Fortran has them: a set has values, each object designates
elements, there is one constant for each, and no element is initialised twice. -/
structure DataScope.Valid (d : DataScope Var Literal) : Prop where
  nonempty : ∀ s ∈ d.sets, s.values ≠ []
  designates : ∀ s ∈ d.sets, ∃ elements, objectElements d.bounds s.objects = some elements ∧
    elements.length = (expandValues s.values).length
  once : (d.values.map Prod.fst).Nodup

/-! ## Executions -/

variable [DecidableEq Var] {Value : Type}

/-- The variables of a scope: an element may be undefined. -/
abbrev Store (Var Value : Type) := Var × List ℤ → Option Value

/-- What a constant is in a variable of its type. -/
abbrev Assigned (Var Literal Value : Type) := Var → Literal → Value

/-- An assignment gives all elements that it designates one value. -/
def Assignment.run (assigned : Assigned Var Literal Value) (bounds : Var → List (ℤ × ℤ))
    (a : Assignment Var Literal) (s : Store Var Value) : Option (Store Var Value) :=
  (designated bounds a.var a.subscripts).map fun elements e =>
    if e ∈ elements then some (assigned a.var a.elem) else s e

/-- The inserted assignments one after another. -/
def runAll (assigned : Assigned Var Literal Value) (bounds : Var → List (ℤ × ℤ))
    (as : List (Assignment Var Literal)) (s : Store Var Value) : Option (Store Var Value) :=
  as.foldlM (fun s a => a.run assigned bounds s) s

/-- The store with the values that `DATA` gives, and no other element changed. -/
def DataScope.initialised (d : DataScope Var Literal) (assigned : Assigned Var Literal Value)
    (s : Store Var Value) :
    Store Var Value := fun e =>
  match d.values.find? fun ev => ev.1 = e with
  | some ev => some (assigned e.1 ev.2)
  | none => s e

/-- A `DATA` statement has an object of this variable. -/
def DataScope.HasData (d : DataScope Var Literal) (x : Var) : Prop :=
  ∃ s ∈ d.sets, ∃ k ∈ s.objects, k.var = x

end DataInit

/-
# The inserted assignments

A list of assignments is a list of updates of elements.  For each set its updates are compared
with the constants that `DATA` gives to the elements, part of the value list by part.
-/

namespace DataInit

variable {Var Literal Value : Type} [DecidableEq Var] {assigned : Assigned Var Literal Value}
  {bounds : Var → List (ℤ × ℤ)}

/-! ## Updates -/

/-- The updates of a list of assignments, if each designates elements. -/
def updates (assigned : Assigned Var Literal Value) (bounds : Var → List (ℤ × ℤ))
    (as : List (Assignment Var Literal)) :
    Option (List ((Var × List ℤ) × Value)) :=
  (as.mapM fun a => (designated bounds a.var a.subscripts).map fun elements =>
    elements.map fun e => (e, assigned a.var a.elem)).map List.flatten

/-- One update after another. -/
def override (u : List ((Var × List ℤ) × Value)) (s : Store Var Value) : Store Var Value :=
  u.foldl (fun s ev e => if e = ev.1 then some ev.2 else s e) s

omit [DecidableEq Var] in
@[simp] theorem updates_nil : updates assigned bounds [] = some [] := rfl

omit [DecidableEq Var] in
theorem updates_cons (a : Assignment Var Literal) (as : List (Assignment Var Literal)) :
    updates assigned bounds (a :: as) = (designated bounds a.var a.subscripts).bind fun elements =>
      (updates assigned bounds as).map fun u => elements.map
        (fun e => (e, assigned a.var a.elem)) ++ u := by
  rw [updates, mapM_cons, updates]
  cases designated bounds a.var a.subscripts with
  | none => rfl
  | some elements =>
    simp only [Option.map_some, Option.bind_some, Option.bind_eq_bind, Option.pure_def]
    cases as.mapM fun a => (designated bounds a.var a.subscripts).map fun elements =>
      elements.map fun e => (e, assigned a.var a.elem) with
    | none => rfl
    | some us => rfl

variable {u : List ((Var × List ℤ) × Value)} {elements : List (Var × List ℤ)}
  {as : List (Assignment Var Literal)} {objects : List (DataObject Var)}
  {values : List (DataValue Literal)}

omit [DecidableEq Var] in
theorem updates_append {as bs : List (Assignment Var Literal)} :
    updates assigned bounds (as ++ bs) = some u ↔
      ∃ v w, updates assigned bounds as = some v ∧ updates assigned bounds bs = some w ∧
        u = v ++ w := by
  induction as generalizing u with
  | nil => simp [eq_comm]
  | cons a as ih =>
    simp only [cons_append, updates_cons, Option.bind_eq_some_iff, Option.map_eq_some_iff]
    constructor
    · rintro ⟨elements, helements, u', hu', rfl⟩
      obtain ⟨v, w, hv, hw, rfl⟩ := ih.1 hu'
      exact ⟨_, w, ⟨elements, helements, v, hv, rfl⟩, hw, (append_assoc _ _ _).symm⟩
    · rintro ⟨_, w, ⟨elements, helements, v, hv, rfl⟩, hw, rfl⟩
      exact ⟨elements, helements, v ++ w, ih.2 ⟨v, w, hv, hw, rfl⟩, (append_assoc _ _ _).symm⟩

theorem override_append (u v : List ((Var × List ℤ) × Value)) (s : Store Var Value) :
    override (u ++ v) s = override v (override u s) := foldl_append

/-- An assignment is the updates of its elements. -/
theorem override_map (elements : List (Var × List ℤ)) (w : Value) (s : Store Var Value) :
    override (elements.map fun e => (e, w)) s = fun e => if e ∈ elements then some w else s e := by
  induction elements generalizing s with
  | nil =>
    funext e
    exact (if_neg not_mem_nil).symm
  | cons a elements ih =>
    rw [map_cons, override, foldl_cons, ← override, ih]
    funext e
    by_cases he : e ∈ elements
    · rw [if_pos he, if_pos (mem_cons_of_mem a he)]
    · by_cases hea : e = a
      · rw [if_neg he, if_pos hea, if_pos (hea ▸ mem_cons_self)]
      · rw [if_neg he, if_neg hea, if_neg fun h => (mem_cons.1 h).elim hea he]

/-- **The assignments make their updates.** -/
theorem runAll_eq (as : List (Assignment Var Literal)) (s : Store Var Value) :
    runAll assigned bounds as s = (updates assigned bounds as).map fun u => override u s := by
  induction as generalizing s with
  | nil => rfl
  | cons a as ih =>
    rw [runAll, foldlM_cons, updates_cons, Assignment.run]
    cases designated bounds a.var a.subscripts with
    | none => rfl
    | some elements =>
      simp only [Option.map_some, Option.bind_some, Option.bind_eq_bind]
      rw [← runAll, ih, ← override_map]
      cases updates assigned bounds as with
      | none => rfl
      | some u => exact congrArg some (override_append _ _ _).symm

variable {e : Var × List ℤ} {x : Var} {constants : List Literal}

theorem override_of_notMem (h : e ∉ u.map Prod.fst)
    (s : Store Var Value) : override u s e = s e := by
  induction u generalizing s with
  | nil => rfl
  | cons a u ih =>
    rw [map_cons, mem_cons, not_or] at h
    rw [override, foldl_cons, ← override, ih h.2, if_neg h.1]

theorem override_of_mem (hu : (u.map Prod.fst).Nodup)
    {v : Value} (h : (e, v) ∈ u) (s : Store Var Value) : override u s e = some v := by
  induction u generalizing s with
  | nil => exact absurd h not_mem_nil
  | cons a u ih =>
    obtain ⟨hnot, hu⟩ := nodup_cons.1 hu
    rw [override, foldl_cons, ← override]
    rcases mem_cons.1 h with rfl | h
    · rw [override_of_notMem hnot, if_pos rfl]
    · exact ih hu h _

/-- A defined element has been updated, if it was not defined before. -/
theorem mem_of_override (hu : (u.map Prod.fst).Nodup)
    {v : Value} (h : override u (fun _ => none) e = some v) : (e, v) ∈ u := by
  by_cases he : e ∈ u.map Prod.fst
  · obtain ⟨⟨e', v'⟩, hmem, rfl⟩ := mem_map.1 he
    rw [override_of_mem hu hmem] at h
    exact Option.some.inj h ▸ hmem
  · rw [override_of_notMem he] at h
    exact absurd h (by simp)

omit [DecidableEq Var] in
/-- Updates of the same elements in the same order, all of which are among the others, are the
others. -/
theorem eq_of_subset {u v : List ((Var × List ℤ) × Value)} (hkeys : u.map Prod.fst = v.map Prod.fst)
    (hu : (u.map Prod.fst).Nodup) (h : v ⊆ u) : u = v := by
  induction u generalizing v with
  | nil => exact (map_eq_nil_iff.1 hkeys.symm).symm
  | cons a u ih =>
    cases v with
    | nil => exact absurd hkeys (by simp)
    | cons b v =>
      rw [map_cons, map_cons, List.cons.injEq] at hkeys
      obtain ⟨hnot, hu⟩ := nodup_cons.1 hu
      have hb : b = a := by
        rcases mem_cons.1 (h mem_cons_self) with rfl | hb
        · rfl
        · exact absurd (hkeys.1 ▸ mem_map_of_mem hb) hnot
      have hv : v ⊆ u := by
        intro c hc
        rcases mem_cons.1 (h (mem_cons_of_mem b hc)) with rfl | hc'
        · exact absurd (hkeys.2 ▸ mem_map_of_mem hc) hnot
        · exact hc'
      rw [hb, ih hkeys.2 hu hv]

/-! ## One pair -/

omit [DecidableEq Var] in
/-- `:` in every dimension designates the whole array. -/
theorem subscriptedTuples_colons (dims : List (ℤ × ℤ)) :
    subscriptedTuples dims (dims.map fun _ => .triplet none none none) = wholeTuples dims := by
  unfold subscriptedTuples wholeTuples
  congr 1
  induction dims with
  | nil => rfl
  | cons dim dims ih =>
    rw [map_cons, map_cons, zipWith_cons_cons, ih]
    simp [Subscript.values]

omit [DecidableEq Var] in
/-- The assignment for an object and a value designates the elements of the object. -/
theorem assignmentOf_eq_some {k : DataObject Var} {v : DataValue Literal}
    {a : Assignment Var Literal}
    (h : assignmentOf bounds k v = some a) : a.var = k.var ∧ a.elem = v.elem ∧ v.repeated ≠ some 0 ∧
      designated bounds a.var a.subscripts = designated bounds k.var k.subscripts := by
  unfold assignmentOf at h
  split at h
  · exact absurd h (by simp)
  · rename_i hrepeat
    split at h
    · split at h
      · rename_i subscripts hk
        obtain rfl := Option.some.inj h
        exact ⟨rfl, rfl, hrepeat, by rw [hk]⟩
      · rename_i hk
        obtain rfl := Option.some.inj h
        refine ⟨rfl, rfl, hrepeat, ?_⟩
        rw [hk]
        simp only [designated]
        rw [subscriptedTuples_colons, if_pos ⟨length_map .., List.Subset.refl _⟩]
    · split at h
      · exact absurd h (by simp)
      · rename_i hk
        obtain rfl := Option.some.inj h
        exact ⟨rfl, rfl, hrepeat, by rw [hk]⟩

omit [DecidableEq Var] in
theorem var_of_designated {subscripts : Option (List Subscript)}
    (h : designated bounds x subscripts = some elements) : ∀ e ∈ elements, e.1 = x := by
  have hmap : ∀ l : List (List ℤ), ∀ e ∈ l.map fun t => (x, t), e.1 = x := by
    intro l e he
    obtain ⟨t, -, rfl⟩ := mem_map.1 he
    rfl
  cases subscripts with
  | none =>
    obtain rfl := Option.some.inj h
    exact hmap _
  | some subscripts =>
    simp only [designated] at h
    split at h
    · obtain rfl := Option.some.inj h
      exact hmap _
    · exact absurd h (by simp)

/-! ## Objects and values in pairs -/

/-- What `DATA` gives, as updates. -/
def dataUpdates (assigned : Assigned Var Literal Value) (values : List ((Var × List ℤ) × Literal)) :
    List ((Var × List ℤ) × Value) := values.map fun ev => (ev.1, assigned ev.1.1 ev.2)

/-- The constants that fall to each object become what the value beside it becomes. -/
def PairsPlain (assigned : Assigned Var Literal Value) (bounds : Var → List (ℤ × ℤ)) :
    List (DataObject Var) → List (DataValue Literal) → List Literal → Prop
  | k :: objects, v :: values, constants =>
    let size := ((designated bounds k.var k.subscripts).getD []).length
    (∀ c ∈ constants.take size, assigned k.var c = assigned k.var v.elem) ∧
      PairsPlain assigned bounds objects values (constants.drop size)
  | _, _, _ => True

omit [DecidableEq Var] in
theorem map_eq_dataUpdates {w : Value}
    (hx : ∀ e ∈ elements, e.1 = x) (hlen : elements.length = constants.length) :
    (elements.map fun e => (e, w)) = dataUpdates assigned (elements.zip constants) ↔
      ∀ c ∈ constants, assigned x c = w := by
  induction elements generalizing constants with
  | nil =>
    obtain rfl : constants = [] := length_eq_zero_iff.1 hlen.symm
    exact iff_of_true rfl (by simp)
  | cons e elements ih =>
    cases constants with
    | nil => exact absurd hlen (by simp)
    | cons c constants =>
      have htail := ih (fun e he => hx e (mem_cons_of_mem _ he)) (Nat.succ.inj hlen)
      simp only [dataUpdates, map_cons, zip_cons_cons, List.cons.injEq, Prod.mk.injEq, true_and,
        forall_mem_cons] at htail ⊢
      rw [htail, hx e mem_cons_self]
      exact and_congr_left fun _ => eq_comm

variable (assigned) in
omit [DecidableEq Var] in
/-- **Pair by pair**: the updates are of the elements in their order, and they are what `DATA` gives
where the pairs are plain. -/
theorem updates_pairs
    (hlen : objects.length = values.length)
    (helements : objectElements bounds objects = some elements)
    (hconstants : elements.length = constants.length)
    (has : (objects.zip values).mapM (fun kv => assignmentOf bounds kv.1 kv.2) = some as) :
    ∃ u, updates assigned bounds as = some u ∧ u.map Prod.fst = elements ∧
      (u = dataUpdates assigned (elements.zip constants) ↔
        PairsPlain assigned bounds objects values constants) := by
  induction objects generalizing values constants elements as with
  | nil =>
    obtain rfl : values = [] := length_eq_zero_iff.1 hlen.symm
    obtain rfl : [] = elements := Option.some.inj helements
    obtain rfl : [] = as := Option.some.inj has
    exact ⟨[], rfl, rfl, iff_of_true rfl trivial⟩
  | cons k objects ih =>
    cases values with
    | nil => exact absurd hlen (by simp)
    | cons v values =>
      rw [objectElements, mapM_cons] at helements
      obtain ⟨parts, hparts, rfl⟩ := Option.map_eq_some_iff.1 helements
      obtain ⟨els, hels, hparts⟩ := Option.bind_eq_some_iff.1 hparts
      obtain ⟨parts, hparts', hcons⟩ := Option.bind_eq_some_iff.1 hparts
      obtain rfl := Option.some.inj hcons
      rw [zip_cons_cons, mapM_cons] at has
      obtain ⟨a, ha, has⟩ := Option.bind_eq_some_iff.1 has
      obtain ⟨as, has', hcons⟩ := Option.bind_eq_some_iff.1 has
      obtain rfl := Option.some.inj hcons
      obtain ⟨hvar, helem, -, hdes⟩ := assignmentOf_eq_some ha
      rw [flatten_cons, length_append] at hconstants
      have htake : els.length = (constants.take els.length).length := by
        rw [length_take]
        omega
      have hdrop : parts.flatten.length = (constants.drop els.length).length := by
        rw [length_drop]
        omega
      obtain ⟨u, hu, hkeys, hiff⟩ :=
        ih (Nat.succ.inj hlen) (by rw [objectElements, hparts']; rfl) hdrop has'
      refine ⟨els.map (fun e => (e, assigned k.var v.elem)) ++ u, ?_, ?_, ?_⟩
      · rw [updates_cons, hdes, hels, Option.bind_some, hu, hvar, helem]
        rfl
      · rw [map_append, hkeys, map_map]
        exact congrArg (· ++ parts.flatten) (map_id' els)
      · have hzip : dataUpdates assigned ((els ++ parts.flatten).zip constants) =
            dataUpdates assigned (els.zip (constants.take els.length)) ++
              dataUpdates assigned (parts.flatten.zip (constants.drop els.length)) := by
          conv_lhs => rw [← take_append_drop els.length constants, zip_append htake]
          exact map_append
        have hlens : (els.map fun e => (e, assigned k.var v.elem)).length =
            (dataUpdates assigned (els.zip (constants.take els.length))).length := by
          rw [dataUpdates, length_map, length_map, length_zip, ← htake, Nat.min_self]
        rw [flatten_cons, hzip, PairsPlain, hels, Option.getD_some, ← hiff,
          ← map_eq_dataUpdates (var_of_designated hels) htake]
        exact ⟨fun h => append_inj h hlens, fun h => congrArg₂ _ h.1 h.2⟩

omit [DecidableEq Var] in
/-- Where the assignments designate elements, the objects do. -/
theorem objectElements_of_updates
    (hlen : objects.length = values.length)
    (has : (objects.zip values).mapM (fun kv => assignmentOf bounds kv.1 kv.2) = some as)
    (hu : updates assigned bounds as = some u) :
    ∃ elements, objectElements bounds objects = some elements := by
  induction objects generalizing values as u with
  | nil => exact ⟨[], rfl⟩
  | cons k objects ih =>
    cases values with
    | nil => exact absurd hlen (by simp)
    | cons v values =>
      rw [zip_cons_cons, mapM_cons] at has
      obtain ⟨a, ha, has⟩ := Option.bind_eq_some_iff.1 has
      obtain ⟨as, has', hcons⟩ := Option.bind_eq_some_iff.1 has
      obtain rfl := Option.some.inj hcons
      rw [updates_cons, (assignmentOf_eq_some ha).2.2.2] at hu
      obtain ⟨els, hels, hu⟩ := Option.bind_eq_some_iff.1 hu
      obtain ⟨u', hu', -⟩ := Option.map_eq_some_iff.1 hu
      obtain ⟨elements, helements⟩ := ih (Nat.succ.inj hlen) has' hu'
      obtain ⟨parts, hparts, -⟩ := Option.map_eq_some_iff.1 helements
      exact ⟨(els :: parts).flatten, by rw [objectElements, mapM_cons, hels]; simp [hparts]⟩

/-! ## One object with several values -/

omit [DecidableEq Var] in
/-- The elements of an array of rank one. -/
theorem wholeTuples_one (lo hi : ℤ) :
    wholeTuples [(lo, hi)] = (List.range (hi - lo + 1).toNat).map fun (k : ℕ) => [lo + k] := by
  simp [wholeTuples, tuples]

omit [DecidableEq Var] in
theorem mem_wholeTuples_one {lo hi i : ℤ} : [i] ∈ wholeTuples [(lo, hi)] ↔ lo ≤ i ∧ i ≤ hi := by
  rw [wholeTuples_one, mem_map]
  constructor
  · rintro ⟨k, hk, heq⟩
    rw [mem_range] at hk
    obtain rfl : lo + k = i := by simpa using heq
    omega
  · rintro ⟨hlo, hhi⟩
    refine ⟨(i - lo).toNat, mem_range.2 (by omega), ?_⟩
    rw [Int.toNat_of_nonneg (by omega), add_sub_cancel]

omit [DecidableEq Var] in
/-- One index designates an element of an array of rank one that has it. -/
theorem designated_index {i : ℤ} :
    designated bounds x (some [.index i]) = some elements ↔
      (∃ lo hi, bounds x = [(lo, hi)] ∧ lo ≤ i ∧ i ≤ hi) ∧ elements = [(x, [i])] := by
  simp only [designated]
  constructor
  · intro h
    split at h
    · rename_i hin
      obtain ⟨⟨lo, hi⟩, hdim⟩ := length_eq_one_iff.1 hin.1.symm
      have htuples : subscriptedTuples (bounds x) [.index i] = [[i]] := by
        rw [hdim]
        rfl
      rw [htuples] at h hin
      rw [hdim] at hin
      exact ⟨⟨lo, hi, hdim, mem_wholeTuples_one.1 (hin.2 mem_cons_self)⟩, (Option.some.inj h).symm⟩
    · exact absurd h (by simp)
  · rintro ⟨⟨lo, hi, hdim, hin⟩, rfl⟩
    have htuples : subscriptedTuples (bounds x) [.index i] = [[i]] := by
      rw [hdim]
      rfl
    rw [htuples, hdim, if_pos ⟨rfl, cons_subset.2 ⟨mem_wholeTuples_one.2 hin, nil_subset _⟩⟩]
    rfl

/-- The elements `1, 2, ...` of an object with several values. -/
def takenApart (x : Var) (n : ℕ) : List (DataObject Var) :=
  (List.range n).map fun (i : ℕ) => ⟨x, some [.index (i + 1)]⟩

omit [DecidableEq Var] in
theorem objectElements_takenApart {n : ℕ} :
    objectElements bounds (takenApart x n) = some elements ↔
      (∀ i < n, ∃ lo hi, bounds x = [(lo, hi)] ∧ lo ≤ (i : ℤ) + 1 ∧ (i : ℤ) + 1 ≤ hi) ∧
        elements = (List.range n).map fun (i : ℕ) => (x, [(i : ℤ) + 1]) := by
  have hlist : ∀ (l : List ℕ) (elements : List (Var × List ℤ)),
      objectElements bounds (l.map fun (i : ℕ) => ⟨x, some [.index (i + 1)]⟩) = some elements ↔
        (∀ i ∈ l, ∃ lo hi, bounds x = [(lo, hi)] ∧ lo ≤ (i : ℤ) + 1 ∧ (i : ℤ) + 1 ≤ hi) ∧
          elements = l.map fun (i : ℕ) => (x, [(i : ℤ) + 1]) := by
    intro l
    induction l with
    | nil => simp [objectElements, eq_comm]
    | cons i l ih =>
      intro elements
      rw [objectElements, map_cons, mapM_cons, forall_mem_cons, map_cons]
      constructor
      · intro h
        obtain ⟨parts, hparts, rfl⟩ := Option.map_eq_some_iff.1 h
        obtain ⟨els, hels, hparts⟩ := Option.bind_eq_some_iff.1 hparts
        obtain ⟨parts, hparts', hcons⟩ := Option.bind_eq_some_iff.1 hparts
        obtain rfl := Option.some.inj hcons
        obtain ⟨hin, rfl⟩ := designated_index.1 hels
        obtain ⟨hall, hflat⟩ := (ih parts.flatten).1 (by rw [objectElements, hparts']; rfl)
        exact ⟨⟨hin, hall⟩, by rw [flatten_cons, hflat]; rfl⟩
      · rintro ⟨⟨hin, hall⟩, rfl⟩
        have hrest := (ih _).2 ⟨hall, rfl⟩
        obtain ⟨parts, hparts, hflat⟩ := Option.map_eq_some_iff.1 hrest
        rw [designated_index.2 ⟨hin, rfl⟩, hparts]
        simp [hflat]
  rw [takenApart, hlist]
  simp only [mem_range]

omit [DecidableEq Var] in
/-- One element takes one constant. -/
theorem pairsPlain_of_single (values : List (DataValue Literal))
    (h : ∀ k ∈ objects, ((designated bounds k.var k.subscripts).getD []).length = 1) :
    PairsPlain assigned bounds objects values (values.map DataValue.elem) := by
  induction objects generalizing values with
  | nil => trivial
  | cons k objects ih =>
    cases values with
    | nil => trivial
    | cons v values =>
      rw [PairsPlain, h k mem_cons_self]
      exact ⟨by simp, ih values fun k hk => h k (mem_cons_of_mem _ hk)⟩

omit [DecidableEq Var] in
theorem length_le_expandValues (h : ∀ v ∈ values, v.repeated ≠ some 0) :
    values.length ≤ (expandValues values).length ∧
      ((expandValues values).length = values.length → ∀ v ∈ values, v.repeated.getD 1 = 1) := by
  induction values with
  | nil => exact ⟨le_rfl, by simp⟩
  | cons v values ih =>
    obtain ⟨hle, hone⟩ := ih fun w hw => h w (mem_cons_of_mem v hw)
    have hv : 1 ≤ v.repeated.getD 1 := by
      have hne := h v mem_cons_self
      cases hr : v.repeated with
      | none => exact le_rfl
      | some r =>
        rw [hr] at hne
        exact Nat.one_le_iff_ne_zero.2 fun h0 => hne (congrArg some h0)
    have hlen : (expandValues (v :: values)).length = v.repeated.getD 1 +
        (expandValues values).length := by
      simp [expandValues]
    rw [hlen, length_cons]
    refine ⟨by omega, fun heq w hw => ?_⟩
    rcases mem_cons.1 hw with rfl | hw
    · omega
    · exact hone (by omega) w hw

omit [DecidableEq Var] in
theorem expandValues_of_one (h : ∀ v ∈ values, v.repeated.getD 1 = 1) :
    expandValues values = values.map DataValue.elem := by
  induction values with
  | nil => rfl
  | cons v values ih =>
    rw [expandValues, flatMap_cons, h v mem_cons_self, ← expandValues,
      ih fun w hw => h w (mem_cons_of_mem v hw)]
    rfl

/-! ## One set -/

/-- The pairs of a set are plain; or it has one object with several values, which is a whole array
of rank one from the index 1 on, and no value is repeated. -/
def SetPlain (assigned : Assigned Var Literal Value) (bounds : Var → List (ℤ × ℤ))
    (s : DataSet Var Literal) : Prop :=
  if s.objects.length = s.values.length then
    PairsPlain assigned bounds s.objects s.values (expandValues s.values)
  else
    ∃ x hi, s.objects = [⟨x, none⟩] ∧ bounds x = [(1, hi)] ∧ ∀ v ∈ s.values, v.repeated.getD 1 = 1

omit [DecidableEq Var] in
theorem repeated_of_mapM
    (hlen : objects.length = values.length)
    (has : (objects.zip values).mapM (fun kv => assignmentOf bounds kv.1 kv.2) = some as) :
    ∀ v ∈ values, v.repeated ≠ some 0 := by
  induction objects generalizing values as with
  | nil =>
    obtain rfl : values = [] := length_eq_zero_iff.1 hlen.symm
    simp
  | cons k objects ih =>
    cases values with
    | nil => simp
    | cons v values =>
      rw [zip_cons_cons, mapM_cons] at has
      obtain ⟨a, ha, has⟩ := Option.bind_eq_some_iff.1 has
      obtain ⟨as, has', -⟩ := Option.bind_eq_some_iff.1 has
      exact forall_mem_cons.2 ⟨(assignmentOf_eq_some ha).2.2.1, ih (Nat.succ.inj hlen) has'⟩

omit [DecidableEq Var] in
/-- **One set**: the updates are those of `DATA` if it is plain, and they can only cover them if it
is. -/
theorem updates_set {s : DataSet Var Literal}
    (hvalues : s.values ≠ []) (helements : objectElements bounds s.objects = some elements)
    (hlen : elements.length = (expandValues s.values).length) (hnodup : elements.Nodup)
    (has : convertSet bounds s = some as) :
    (SetPlain assigned bounds s →
      updates assigned bounds as = some (dataUpdates assigned (setValues bounds s))) ∧
      ∀ u, updates assigned bounds as = some u → (u.map Prod.fst).Nodup ∧
        u.map Prod.fst ⊆ elements ∧
        (dataUpdates assigned (setValues bounds s) ⊆ u → SetPlain assigned bounds s) := by
  have hset : setValues bounds s = elements.zip (expandValues s.values) := by
    rw [setValues, helements]; rfl
  have hkeys : (dataUpdates assigned (setValues bounds s)).map Prod.fst = elements := by
    rw [hset, dataUpdates, map_map]
    exact map_fst_zip hlen.le
  obtain ⟨objects, hobjects, has⟩ := Option.bind_eq_some_iff.1 has
  unfold expandObjects at hobjects
  split at hobjects
  · rename_i hne
    split at hobjects
    · rename_i x hx
      have hplain : SetPlain assigned bounds s ↔
          ∃ hi, bounds x = [(1, hi)] ∧ ∀ v ∈ s.values, v.repeated.getD 1 = 1 := by
        rw [SetPlain, if_neg hne, hx]
        constructor
        · rintro ⟨y, hi, hxy, h⟩
          obtain rfl : x = y := by simpa using hxy
          exact ⟨hi, h⟩
        · rintro ⟨hi, h⟩
          exact ⟨x, hi, rfl, h⟩
      have hwhole : elements = (wholeTuples (bounds x)).map fun t => (x, t) := by
        rw [hx] at helements
        simpa [objectElements, designated] using helements.symm
      obtain rfl : takenApart x s.values.length = objects := Option.some.inj hobjects
      have hlen' : (takenApart x s.values.length).length = s.values.length := by simp [takenApart]
      have hpos : 0 < s.values.length := length_pos_iff.2 hvalues
      have hsingle : (∀ i < s.values.length, ∃ lo hi, bounds x = [(lo, hi)] ∧ lo ≤ (i : ℤ) + 1 ∧
        (i : ℤ) + 1 ≤ hi) →
          ∀ k ∈ takenApart x s.values.length,
            ((designated bounds k.var k.subscripts).getD []).length = 1 := by
        intro hin k hk
        obtain ⟨i, hi, rfl⟩ := mem_map.1 hk
        rw [designated_index.2 ⟨hin i (mem_range.1 hi), rfl⟩]
        rfl
      -- the updates are those of the elements 1, 2, ..., with the values as they are written
      have hupdates : (∀ i < s.values.length, ∃ lo hi, bounds x = [(lo, hi)] ∧ lo ≤ (i : ℤ) + 1 ∧
        (i : ℤ) + 1 ≤ hi) →
          updates assigned bounds as = some (dataUpdates assigned
            (((List.range s.values.length).map fun (i : ℕ) => (x, [(i : ℤ) + 1])).zip
              (s.values.map DataValue.elem))) := by
        intro hin
        have hone : ((List.range s.values.length).map fun (i : ℕ) => (x, [(i : ℤ) + 1])).length =
            (s.values.map DataValue.elem).length := by simp
        obtain ⟨u, hu, -, hiff⟩ :=
          updates_pairs assigned hlen' (objectElements_takenApart.2 ⟨hin, rfl⟩)
          hone has
        rw [hu, hiff.2 (pairsPlain_of_single s.values (hsingle hin))]
      rw [hplain]
      constructor
      · rintro ⟨hi, hdim, hone⟩
        have hhi : hi.toNat = s.values.length := by
          have h := hlen
          rw [hwhole, hdim, wholeTuples_one, expandValues_of_one hone] at h
          simpa using h
        rw [hupdates fun i hin => ⟨1, hi, hdim, by omega, by omega⟩, hset, hwhole, hdim,
          wholeTuples_one,
          expandValues_of_one hone]
        have hsub : (hi - 1 + 1).toNat = s.values.length := by rw [sub_add_cancel, hhi]
        rw [hsub, map_map]
        congr 3
        refine map_congr_left fun i _ => ?_
        simp [add_comm]
      · intro u hu
        obtain ⟨elements', helements'⟩ := objectElements_of_updates hlen' has hu
        obtain ⟨hin, -⟩ := objectElements_takenApart.1 helements'
        rw [hupdates hin] at hu
        obtain rfl := Option.some.inj hu
        obtain ⟨lo, hi, hdim, hlo, -⟩ := hin 0 hpos
        have hbounds : ∀ i < s.values.length, lo ≤ (i : ℤ) + 1 ∧ (i : ℤ) + 1 ≤ hi := by
          intro i hlt
          obtain ⟨lo', hi', hdim', hb⟩ := hin i hlt
          rw [hdim] at hdim'
          obtain ⟨rfl, rfl⟩ : lo = lo' ∧ hi = hi' := by simpa using hdim'
          exact hb
        have hfst : (dataUpdates assigned
          (((List.range s.values.length).map fun (i : ℕ) => (x, [(i : ℤ) + 1])).zip
            (s.values.map DataValue.elem))).map Prod.fst =
              (List.range s.values.length).map fun (i : ℕ) => (x, [(i : ℤ) + 1]) := by
          rw [dataUpdates, map_map]
          exact map_fst_zip (by simp)
        rw [hfst]
        refine ⟨nodup_range.map fun i j hij => ?_, ?_, fun hsub => ?_⟩
        · have hcast : (i : ℤ) = j := by simpa using hij
          exact Int.ofNat_inj.1 hcast
        · intro e he
          obtain ⟨i, hi', rfl⟩ := mem_map.1 he
          rw [hwhole, hdim]
          exact mem_map.2 ⟨_, mem_wholeTuples_one.2 (hbounds i (mem_range.1 hi')), rfl⟩
        · have hcover : ∀ i, lo ≤ i → i ≤ hi → 1 ≤ i ∧ i ≤ s.values.length := by
            intro i hloi hihi
            have hmem : (x, [i]) ∈ (dataUpdates assigned (setValues bounds s)).map Prod.fst := by
              rw [hkeys, hwhole, hdim]
              exact mem_map.2 ⟨_, mem_wholeTuples_one.2 ⟨hloi, hihi⟩, rfl⟩
            have hmem' := map_subset Prod.fst hsub hmem
            rw [hfst] at hmem'
            obtain ⟨k, hk, heq⟩ := mem_map.1 hmem'
            rw [mem_range] at hk
            have hki : (k : ℤ) + 1 = i := by simpa using heq
            omega
          have hfirst := hbounds 0 hpos
          have hlast := hbounds (s.values.length - 1) (by omega)
          have hlo1 := hcover lo le_rfl (by omega)
          have hhin := hcover hi (by omega) le_rfl
          obtain rfl : lo = 1 := by omega
          refine ⟨hi, hdim, (length_le_expandValues (repeated_of_mapM hlen' has)).2 ?_⟩
          rw [← hlen, hwhole, hdim, wholeTuples_one, length_map, length_map, length_range]
          omega
    · exact absurd hobjects (by simp)
  · rename_i heq
    rw [not_not] at heq
    obtain rfl := Option.some.inj hobjects
    obtain ⟨u, hu, hfst, hiff⟩ := updates_pairs assigned heq helements hlen has
    rw [SetPlain, if_pos heq, ← hiff, hset]
    refine ⟨fun h => hu.trans (congrArg some h), fun u' hu' => ?_⟩
    obtain rfl := Option.some.inj (hu.symm.trans hu')
    rw [hfst]
    refine ⟨hnodup, List.Subset.refl _, fun hsub => ?_⟩
    refine eq_of_subset ?_ (by rwa [hfst]) hsub
    rw [hfst, ← hset, hkeys]

end DataInit
