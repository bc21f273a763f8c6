/-
# The `DATA` of a scope over its calls

Fortran gives the values once, and a variable with `DATA` keeps its values from call to call.
The inserted assignments run in every call, and without `DATA` such a variable is only kept if it
has `SAVE`.
-/
import DaceFortran.DataInit.DataStatements

open List

namespace DataInit

variable {Var Literal Value : Type} [DecidableEq Var]

/-! ## Runs of a scope -/

instance (d : DataScope Var Literal) (x : Var) : Decidable (d.HasData x) := by
  unfold DataScope.HasData
  infer_instance

/-- What is left of the variables behind a call. -/
def leave (kept : Var → Prop) [DecidablePred kept]
    (s : Store Var Value) : Store Var Value := fun e =>
  if kept e.1 then s e else none

/-- The stores in which the bodies of the calls start: the variables with `SAVE` or `DATA` are
kept. -/
def fortranStores (d : DataScope Var Literal) :
    Store Var Value → List (Store Var Value → Store Var Value) → List (Store Var Value)
  | _, [] => []
  | s, body :: bodies => s ::
      fortranStores d (leave (fun x => d.saved x ∨ d.HasData x) (body s)) bodies

/-- The same after the pass: the inserted assignments run first in each call. -/
def passStores (assigned : Assigned Var Literal Value) (d : DataScope Var Literal)
    (as : List (Assignment Var Literal)) :
    Store Var Value → List (Store Var Value → Store Var Value) → Option (List (Store Var Value))
  | _, [] => some []
  | s, body :: bodies => do
    let s' ← runAll assigned d.bounds as s
    let stores ← passStores assigned d as (leave (fun x => d.saved x) (body s')) bodies
    some (s' :: stores)

/-- The inserted assignments give the elements their values, and change no other element. -/
def Initialises (assigned : Assigned Var Literal Value) (d : DataScope Var Literal)
    (as : List (Assignment Var Literal)) : Prop :=
  ∀ s, runAll assigned d.bounds as s = some (d.initialised assigned s)

/-- **The pass initialises the same elements**, and in a run of the scope, a list of the bodies of
its calls, every call has the values of Fortran.  In a procedure without an execution part nothing
is executed. -/
def KeepsData (assigned : Assigned Var Literal Value) (d : DataScope Var Literal)
    (as : List (Assignment Var Literal))
    (before : Store Var Value) (bodies : List (Store Var Value → Store Var Value)) : Prop :=
  match d.box with
  | .procedure true => Initialises assigned d as ∧
      passStores assigned d as before bodies =
        some (fortranStores d (d.initialised assigned before) bodies)
  | .procedure false => True
  | .module => Initialises assigned d as

/-- A call that another one follows leaves each element with the constant that `DATA` has for it,
and any other element of a variable with `DATA` undefined if the variable has no `SAVE`. -/
def LeavesData (assigned : Assigned Var Literal Value) (d : DataScope Var Literal)
    (s : Store Var Value) : Prop :=
  (∀ ev ∈ d.values, s ev.1 = some (assigned ev.1.1 ev.2)) ∧
    ∀ e, e ∉ d.values.map Prod.fst → d.HasData e.1 → d.saved e.1 = false → s e = none

/-- Every call that another one follows leaves the data. -/
def CallsLeaveData (assigned : Assigned Var Literal Value) (d : DataScope Var Literal) :
    Store Var Value → List (Store Var Value → Store Var Value) → Prop
  | _, [] => True
  | _, [_] => True
  | s, body :: next :: bodies => LeavesData assigned d (body s) ∧
      CallsLeaveData assigned d (leave (fun x => d.saved x ∨ d.HasData x) (body s)) (next :: bodies)

/-- The condition: in a procedure, every set is plain and every call that another one follows leaves
the data; in a module, no element is initialised. -/
def DataPlain (assigned : Assigned Var Literal Value) (d : DataScope Var Literal)
    (before : Store Var Value)
    (bodies : List (Store Var Value → Store Var Value)) : Prop :=
  match d.box with
  | .procedure true => (∀ s ∈ d.sets, SetPlain assigned d.bounds s) ∧
      CallsLeaveData assigned d (d.initialised assigned before) bodies
  | .procedure false => True
  | .module => d.values = []

variable {assigned : Assigned Var Literal Value} {d : DataScope Var Literal}
    {as : List (Assignment Var Literal)}

/-! ## The values of `DATA` -/

theorem initialised_of_mem (hd : d.Valid) {e : Var × List ℤ} {c : Literal} (h : (e, c) ∈ d.values)
    (s : Store Var Value) : d.initialised assigned s e = some (assigned e.1 c) := by
  have hfind : d.values.find? (fun ev => decide (ev.1 = e)) = some (e, c) := by
    have hsome : (d.values.find? fun ev => decide (ev.1 = e)).isSome := by
      rw [List.find?_isSome]
      exact ⟨(e, c), h, by simp⟩
    obtain ⟨ev, hev⟩ := Option.isSome_iff_exists.1 hsome
    have hfst : ev.1 = e := by simpa using List.find?_some hev
    have heq := inj_on_of_nodup_map hd.once (mem_of_find?_eq_some hev) h hfst
    rw [hev, heq]
  rw [DataScope.initialised, hfind]

theorem initialised_of_notMem {e : Var × List ℤ} (h : e ∉ d.values.map Prod.fst)
    (s : Store Var Value) :
    d.initialised assigned s e = s e := by
  have hfind : d.values.find? (fun ev => decide (ev.1 = e)) = none := by
    rw [List.find?_eq_none]
    intro ev hev
    rw [decide_eq_true_iff]
    rintro rfl
    exact h (mem_map_of_mem hev)
  rw [DataScope.initialised, hfind]

omit [DecidableEq Var] in
theorem dataUpdates_keys (assigned : Assigned Var Literal Value)
    (values : List ((Var × List ℤ) × Literal)) :
    (dataUpdates assigned values).map Prod.fst = values.map Prod.fst := by
  rw [dataUpdates, map_map]
  rfl

/-- The values of `DATA` are updates. -/
theorem initialised_eq (hd : d.Valid) (s : Store Var Value) :
    d.initialised assigned s = override (dataUpdates assigned d.values) s := by
  funext e
  by_cases he : e ∈ d.values.map Prod.fst
  · obtain ⟨⟨e', c⟩, hmem, rfl⟩ := mem_map.1 he
    have hupdate : (e', assigned e'.1 c) ∈ dataUpdates assigned d.values := mem_map.2 ⟨_, hmem, rfl⟩
    rw [initialised_of_mem hd hmem,
      override_of_mem (by rw [dataUpdates_keys]; exact hd.once) hupdate]
  · rw [initialised_of_notMem he, override_of_notMem (by rwa [dataUpdates_keys])]

/-! ## All sets -/

omit [DecidableEq Var] in
/-- The assignments are those of the sets in their order. -/
theorem convertDataStatements_eq (hbox : d.box = .procedure true)
    (h : convertDataStatements d = some as) :
    ∃ ass, List.Forall₂ (fun s a => convertSet d.bounds s = some a) d.sets ass ∧
      as = ass.flatten := by
  have hfold : ∀ (statements : List (List (DataSet Var Literal)))
    (execution : List (Assignment Var Literal)),
      statements.reverse.foldlM
        (fun execution sets => (convertStatement d.bounds sets).map fun repls =>
        if d.box = .procedure true then repls ++ execution else execution) [] = some execution →
      ∃ ass, List.Forall₂ (fun s a => convertSet d.bounds s = some a) statements.flatten ass ∧
        execution = ass.flatten := by
    intro statements
    induction statements with
    | nil =>
      intro execution h
      exact ⟨[], .nil, (Option.some.inj h).symm⟩
    | cons sets statements ih =>
      intro execution h
      rw [reverse_cons, foldlM_append] at h
      obtain ⟨rest, hrest, h⟩ := Option.bind_eq_some_iff.1 h
      obtain ⟨ass, hass, rfl⟩ := ih rest hrest
      rw [foldlM_cons] at h
      obtain ⟨execution', hstep, hnil⟩ := Option.bind_eq_some_iff.1 h
      obtain rfl : execution' = execution := Option.some.inj hnil
      obtain ⟨repls, hrepls, rfl⟩ := Option.map_eq_some_iff.1 hstep
      obtain ⟨bss, hbss, rfl⟩ := Option.map_eq_some_iff.1 hrepls
      refine ⟨bss ++ ass, ?_, by rw [if_pos hbox, flatten_append]⟩
      rw [flatten_cons]
      exact rel_append (Fallible.mapM_eq_some_iff.1 hbss) hass
  exact hfold d.statements as h

omit [DecidableEq Var] in
/-- Outside of an execution part nothing is inserted. -/
theorem convertDataStatements_module (hbox : d.box ≠ .procedure true)
    (h : convertDataStatements d = some as) :
    as = [] := by
  refine Fallible.foldlM_invariant_some (I := fun execution => execution = []) ?_ h rfl
  intro execution sets execution' _ hstep hexecution
  obtain ⟨repls, -, rfl⟩ := Option.map_eq_some_iff.1 hstep
  rw [if_neg hbox, hexecution]

variable (assigned) in
omit [DecidableEq Var] in
/-- What is known of each set of a valid scope. -/
theorem updates_of_valid (hd : d.Valid) {s : DataSet Var Literal} (hs : s ∈ d.sets)
    {a : List (Assignment Var Literal)}
    (ha : convertSet d.bounds s = some a) :
    (SetPlain assigned d.bounds s →
      updates assigned d.bounds a = some (dataUpdates assigned (setValues d.bounds s))) ∧
      ∀ u, updates assigned d.bounds a = some u → (u.map Prod.fst).Nodup ∧
        u.map Prod.fst ⊆ (setValues d.bounds s).map Prod.fst ∧
          (dataUpdates assigned (setValues d.bounds s) ⊆ u → SetPlain assigned d.bounds s) := by
  obtain ⟨elements, helements, hlen⟩ := hd.designates s hs
  have hkeys : (setValues d.bounds s).map Prod.fst = elements := by
    rw [setValues, helements]
    exact map_fst_zip hlen.le
  have hnodup : elements.Nodup := by
    obtain ⟨before, after, hsplit⟩ := append_of_mem hs
    have honce := hd.once
    rw [DataScope.values, hsplit, flatMap_append, flatMap_cons, map_append, map_append,
      hkeys] at honce
    exact (nodup_append.1 (nodup_append.1 honce).2.1).1
  rw [hkeys]
  exact updates_set (hd.nonempty s hs) helements hlen hnodup ha

variable (assigned) in
omit [DecidableEq Var] in
/-- All sets are plain exactly where the updates of all assignments are those of `DATA`. -/
theorem updates_iff {sets : List (DataSet Var Literal)} {ass : List (List (Assignment Var Literal))}
    (hsets : ∀ s ∈ sets, s ∈ d.sets) (hd : d.Valid)
    (honce : ((sets.flatMap (setValues d.bounds)).map Prod.fst).Nodup)
    (hass : List.Forall₂ (fun s a => convertSet d.bounds s = some a) sets ass) :
    ((∀ s ∈ sets, SetPlain assigned d.bounds s) →
        updates assigned d.bounds ass.flatten =
          some (dataUpdates assigned (sets.flatMap (setValues d.bounds)))) ∧
      ∀ u, updates assigned d.bounds ass.flatten = some u → (u.map Prod.fst).Nodup ∧
        u.map Prod.fst ⊆ (sets.flatMap (setValues d.bounds)).map Prod.fst ∧
          (dataUpdates assigned (sets.flatMap (setValues d.bounds)) ⊆ u →
            ∀ s ∈ sets, SetPlain assigned d.bounds s) := by
  induction hass with
  | nil =>
    refine ⟨fun _ => rfl, fun u hu => ?_⟩
    obtain rfl : [] = u := Option.some.inj hu
    simp
  | @cons s a sets ass ha hass ih =>
    rw [flatMap_cons, map_append] at honce
    obtain ⟨-, honce', hapart⟩ := nodup_append.1 honce
    obtain ⟨hset, hset'⟩ := updates_of_valid assigned hd (hsets s mem_cons_self) ha
    obtain ⟨hrest, hrest'⟩ := ih (fun s hs => hsets s (mem_cons_of_mem _ hs)) honce'
    have hsplit : dataUpdates assigned ((s :: sets).flatMap (setValues d.bounds)) =
        dataUpdates assigned (setValues d.bounds s) ++
          dataUpdates assigned (sets.flatMap (setValues d.bounds)) := by
      rw [flatMap_cons, dataUpdates, map_append]
      rfl
    rw [flatten_cons, hsplit, flatMap_cons, map_append]
    refine ⟨fun h => ?_, fun u hu => ?_⟩
    · obtain ⟨hs, hsets'⟩ := forall_mem_cons.1 h
      exact updates_append.2 ⟨_, _, hset hs, hrest hsets', rfl⟩
    · obtain ⟨v, w, hv, hw, rfl⟩ := updates_append.1 hu
      obtain ⟨hvn, hvk, hvp⟩ := hset' v hv
      obtain ⟨hwn, hwk, hwp⟩ := hrest' w hw
      rw [map_append]
      refine ⟨nodup_append.2 ⟨hvn, hwn, fun a ha b hb => hapart a (hvk ha) b (hwk hb)⟩,
        append_subset.2 ⟨fun e he => mem_append_left _ (hvk he),
          fun e he => mem_append_right _ (hwk he)⟩, fun hsub => ?_⟩
      obtain ⟨hsubv, hsubw⟩ := append_subset.1 hsub
      refine forall_mem_cons.2 ⟨hvp fun ev hev => ?_, hwp fun ev hev => ?_⟩
      · refine (mem_append.1 (hsubv hev)).resolve_right fun h => ?_
        have hkey : ev.1 ∈ (setValues d.bounds s).map Prod.fst := by
          rw [← dataUpdates_keys assigned]
          exact mem_map_of_mem hev
        exact hapart ev.1 hkey ev.1 (hwk (mem_map_of_mem h)) rfl
      · refine (mem_append.1 (hsubw hev)).resolve_left fun h => ?_
        have hkey : ev.1 ∈ (sets.flatMap (setValues d.bounds)).map Prod.fst := by
          rw [← dataUpdates_keys assigned]
          exact mem_map_of_mem hev
        exact hapart ev.1 (hvk (mem_map_of_mem h)) ev.1 hkey rfl

/-- **The assignments initialise what `DATA` initialises** exactly where every set is plain. -/
theorem initialises_iff (hd : d.Valid) (hbox : d.box = .procedure true)
    (h : convertDataStatements d = some as) :
    Initialises assigned d as ↔ ∀ s ∈ d.sets, SetPlain assigned d.bounds s := by
  obtain ⟨ass, hass, rfl⟩ := convertDataStatements_eq hbox h
  obtain ⟨hplain, hupdates⟩ := updates_iff assigned (fun s hs => hs) hd hd.once hass
  have hkeys : ((dataUpdates assigned d.values).map Prod.fst).Nodup := by
    rw [dataUpdates_keys]
    exact hd.once
  constructor
  · intro hinit
    have hnone := hinit fun _ => none
    rw [runAll_eq, initialised_eq hd] at hnone
    obtain ⟨u, hu, hoverride⟩ := Option.map_eq_some_iff.1 hnone
    obtain ⟨hnodup, -, hsets⟩ := hupdates u hu
    refine hsets fun ev hev => mem_of_override hnodup ?_
    rw [hoverride]
    exact override_of_mem hkeys hev _
  · intro hsets s
    rw [runAll_eq, hplain hsets, initialised_eq hd]
    rfl

/-! ## All calls -/

/-- The store of the next call is that of Fortran exactly where the call leaves the data. -/
theorem initialised_leave_iff (hd : d.Valid) (s : Store Var Value) :
    d.initialised assigned (leave (fun x => d.saved x) s) = leave (fun x => d.saved x ∨
      d.HasData x) s ↔
      LeavesData assigned d s := by
  have hdata : ∀ ev ∈ d.values, d.HasData ev.1.1 := by
    intro ev hev
    obtain ⟨set, hset, hmem⟩ := mem_flatMap.1 hev
    obtain ⟨elements, helements, -⟩ := hd.designates set hset
    rw [setValues, helements] at hmem
    have hin : ev.1 ∈ elements := (of_mem_zip hmem).1
    obtain ⟨parts, hparts, rfl⟩ := Option.map_eq_some_iff.1 helements
    obtain ⟨part, hpart, hin⟩ := mem_flatten.1 hin
    obtain ⟨k, hk, hkpart⟩ := Fallible.exists_of_mem_mapM hparts hpart
    exact ⟨set, hset, k, hk, (var_of_designated hkpart ev.1 hin).symm⟩
  constructor
  · intro heq
    refine ⟨fun ev hev => ?_, fun e he hdat hsave => ?_⟩
    · have hev' := congrFun heq ev.1
      rw [initialised_of_mem hd hev, leave, if_pos (.inr (hdata ev hev))] at hev'
      exact hev'.symm
    · have he' := congrFun heq e
      rw [initialised_of_notMem he, leave, leave, if_neg (by simp [hsave]),
        if_pos (.inr hdat)] at he'
      exact he'.symm
  · rintro ⟨hvalues, hothers⟩
    funext e
    by_cases he : e ∈ d.values.map Prod.fst
    · obtain ⟨ev, hev, rfl⟩ := mem_map.1 he
      rw [initialised_of_mem hd hev, leave, if_pos (.inr (hdata ev hev)), hvalues ev hev]
    · rw [initialised_of_notMem he, leave, leave]
      by_cases hsave : d.saved e.1 = true
      · rw [if_pos hsave, if_pos (.inl hsave)]
      · rw [if_neg hsave]
        by_cases hdat : d.HasData e.1
        · rw [if_pos (.inr hdat), hothers e he hdat (by simpa using hsave)]
        · rw [if_neg (by simp [hsave, hdat])]

/-- Call by call: the stores are the same exactly where every call that another one follows leaves
the data. -/
theorem passStores_iff (hd : d.Valid) (hinit : Initialises assigned d as)
    (bodies : List (Store Var Value → Store Var Value)) (s : Store Var Value) :
    passStores assigned d as s bodies = some (fortranStores d (d.initialised assigned s) bodies) ↔
      CallsLeaveData assigned d (d.initialised assigned s) bodies := by
  have hcons : ∀ body bodies s, passStores assigned d as s (body :: bodies) =
      (passStores assigned d as
        (leave (fun x => d.saved x) (body (d.initialised assigned s))) bodies).map
        (d.initialised assigned s :: ·) := by
    intro body bodies s
    rw [passStores, hinit s]
    cases hp : passStores assigned d as
      (leave (fun x => d.saved x) (body (d.initialised assigned s))) bodies with
    | none => simp [hp]
    | some stores => simp [hp]
  induction bodies generalizing s with
  | nil => exact iff_of_true rfl trivial
  | cons body bodies ih =>
    rw [hcons, fortranStores]
    cases bodies with
    | nil => exact iff_of_true rfl trivial
    | cons next bodies =>
      rw [CallsLeaveData, ← initialised_leave_iff hd]
      constructor
      · intro h
        obtain ⟨stores, hstores, heq⟩ := Option.map_eq_some_iff.1 h
        obtain rfl := (List.cons.inj heq).2
        have hfirst : d.initialised assigned
          (leave (fun x => d.saved x) (body (d.initialised assigned s))) =
            leave (fun x => d.saved x ∨ d.HasData x) (body (d.initialised assigned s)) := by
          rw [hcons] at hstores
          obtain ⟨rest, -, hrest⟩ := Option.map_eq_some_iff.1 hstores
          exact (List.cons.inj hrest).1
        rw [← hfirst] at hstores ⊢
        exact ⟨rfl, (ih _).1 hstores⟩
      · rintro ⟨hfirst, hcalls⟩
        rw [← hfirst] at hcalls ⊢
        rw [(ih _).2 hcalls]
        rfl

/-- **Exactly when the inserted assignments do what `DATA` does.** -/
theorem keepsData_iff (hd : d.Valid) (h : convertDataStatements d = some as)
    (before : Store Var Value)
    (bodies : List (Store Var Value → Store Var Value)) :
    KeepsData assigned d as before bodies ↔ DataPlain assigned d before bodies := by
  unfold KeepsData DataPlain
  cases hbox : d.box with
  | procedure execution =>
    cases execution with
    | true =>
      simp only
      rw [initialises_iff hd hbox h]
      refine and_congr_right fun hsets => ?_
      exact passStores_iff hd ((initialises_iff hd hbox h).2 hsets) bodies before
    | false => exact Iff.rfl
  | module =>
    obtain rfl := convertDataStatements_module (by rw [hbox]; exact nofun) h
    simp only
    constructor
    · intro hinit
      by_contra hne
      obtain ⟨ev, hev⟩ := List.exists_mem_of_ne_nil _ hne
      have hnone := Option.some.inj (hinit fun _ => none)
      have hev' := congrFun hnone ev.1
      rw [initialised_of_mem hd hev] at hev'
      exact absurd hev' (by simp)
    · intro hvalues s
      rw [initialised_eq hd, hvalues]
      rfl

/-! ## One array -/

/-- `INTEGER n(3)` in a procedure with one `DATA` statement. -/
def threeElements (s : DataSet Unit ℕ) : DataScope Unit ℕ where
  box := .procedure true
  bounds := fun _ => [(1, 3)]
  saved := fun _ => false
  statements := [[s]]

/-- `DATA n / 1, 2, 3 /` -/
def valueByValue : DataScope Unit ℕ :=
  threeElements ⟨[⟨(), none⟩], [⟨none, 1⟩, ⟨none, 2⟩, ⟨none, 3⟩]⟩

theorem valueByValue_valid : valueByValue.Valid where
  nonempty := by
    intro s hs
    obtain rfl := mem_singleton.1 hs
    exact nofun
  designates := by
    intro s hs
    obtain rfl := mem_singleton.1 hs
    exact ⟨_, rfl, rfl⟩
  once := by decide

/-- One call of the procedure. -/
theorem keepsData_valueByValue : KeepsData (fun _ c => c) valueByValue
    [⟨(), some [.index 1], 1⟩, ⟨(), some [.index 2], 2⟩, ⟨(), some [.index 3], 3⟩]
      (fun _ => (none : Option ℕ)) [id] := by
  refine (keepsData_iff valueByValue_valid rfl _ _).2 ⟨fun s hs => ?_, trivial⟩
  obtain rfl := List.mem_singleton.1 hs
  exact ⟨(), 3, rfl, rfl, by decide⟩

/-- `DATA n(1), n(2:3) / 2*1, 2 /` -/
def repeatedFirst : DataScope Unit ℕ := threeElements
  ⟨[⟨(), some [.index 1]⟩, ⟨(), some [.triplet (some 2) (some 3) none]⟩], [⟨some 2, 1⟩, ⟨none, 2⟩]⟩

/-- `n(1) = 1` and `n(2:3) = 2` -/
def repeatedFirstAssignments : List (Assignment Unit ℕ) :=
  [⟨(), some [.index 1], 1⟩, ⟨(), some [.triplet (some 2) (some 3) none], 2⟩]

theorem repeatedFirst_valid : repeatedFirst.Valid where
  nonempty := by
    intro s hs
    obtain rfl := mem_singleton.1 hs
    exact nofun
  designates := by
    intro s hs
    obtain rfl := mem_singleton.1 hs
    exact ⟨_, rfl, rfl⟩
  once := by decide

/-- **The repeat count is not used**: `n(2)` becomes 2 where `DATA` gives 1. -/
theorem not_keepsData_repeatedFirst : repeatedFirst.Valid ∧
    convertDataStatements repeatedFirst = some repeatedFirstAssignments ∧
      ¬ KeepsData (fun _ c => c) repeatedFirst repeatedFirstAssignments (fun _ => (none : Option ℕ))
      [id] := by
  refine ⟨repeatedFirst_valid, rfl, fun h => ?_⟩
  have hplain := (initialises_iff repeatedFirst_valid rfl rfl).1 h.1 _ List.mem_cons_self
  have hconstants : ∀ c ∈ [1, 2], c = 2 := hplain.2.1
  exact absurd (hconstants 1 List.mem_cons_self) (by decide)

end DataInit
