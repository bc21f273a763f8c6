/-
# Exactly when the generated calls reproduce Fortran's initialisation

Variable by variable, what is replayed has to be what Fortran initialises; and since each start
of an entry point replays it, nothing that is initialised may have changed by then.
-/
import DaceFortran.GlobalInit.InitReplays

open List

namespace GlobalInit

variable {Name Value : Type} [DecidableEq Name] {n : ℕ}

/-! ## Declarations that get statements -/

/-- One record of a derived type. -/
def Declared.IsRecord (c : Declared Name Value n) (t : Fin n) : Prop :=
  c.type = .derived t ∧ c.shape = false

/-- A variable that is to be initialised. -/
structure Global.IsInited (v : Global Name Value n) : Prop where
  no_const : v.const = false
  inited : v.decl.type ≠ .intrinsic ∨ v.decl.init.isSome

/-- One that is no array of records. -/
structure Global.IsSet (v : Global Name Value n) : Prop extends v.IsInited where
  no_array : v.decl.type = .intrinsic ∨ v.decl.shape = false

namespace Program

variable (P : Program Name Value n)

/-! ## The condition -/

/-- A record of the type is initialised: a variable, or a component with an initialiser. -/
def HasRecord (t : Fin n) : Prop :=
  (∃ u, ∃ c ∈ (P.types u).comps, c.init.isSome ∧ c.IsRecord t) ∨
    ∃ v ∈ P.vars, v.const = false ∧ v.decl.IsRecord t

/-- The declarations that `global_init_fn` can be written for outside of their modules. -/
structure Importable : Prop where
  /-- A type with records has no initialised record of its own module. -/
  otherModule : ∀ t, P.HasRecord t → ∀ c ∈ (P.types t).comps, c.init.isSome → ∀ u, c.IsRecord u →
    (P.types u).module ≠ (P.types t).module
  oneModule : ∀ v ∈ P.vars, v.IsSet → ∀ w ∈ P.vars, w.IsInited → w.decl.name = v.decl.name →
    w.module = v.module
  unnamed : ∀ v ∈ P.vars, v.const = false → v.decl.type = .intrinsic →
    ∀ init, v.decl.init = some init →
    init.named = false
  noPrivate : ∀ v ∈ P.vars, v.IsInited → v.access ≠ .ownModule
  noProtected : ∀ v ∈ P.vars, v.IsSet → v.access ≠ .readOnly

/-- A variable of a derived type is one record, and neither a pointer nor allocatable, whose
initialisation the subroutine of the type replays; or it is an array of records that is not
initialised. -/
def VariablePlain (c : Declared Name Value n) : Prop :=
  match c.type with
  | .intrinsic => True
  | .derived t =>
    if c.shape then ∀ p, P.fortranInit c p = none else c.indirect = false ∧
      P.Replays t (P.fortranInit c)

/-- What is executed from a start of an entry point to the next one leaves everything that Fortran
initialises with its initial value. -/
def SegmentsKeep (s : Store Name Value) : List (Store Name Value → Store Name Value) → Prop
  | [] => True
  | [_] => True
  | segment :: next :: segments =>
    P.initialised (segment s) = segment s ∧ SegmentsKeep (segment s) (next :: segments)

variable {P}

/-! ## The generated text -/

variable {v : Global Name Value n}

omit [DecidableEq Name] in
theorem initStatement_eq_call {c target : Declared Name Value n} {t : Fin n} :
    initStatement c = some (.call t target) ↔ c.IsRecord t ∧ target = c := by
  unfold initStatement Declared.IsRecord
  cases htype : c.type with
  | intrinsic => simp
  | derived u =>
    cases hshape : c.shape with
    | true => simp
    | false =>
      simp only [Bool.false_eq_true, if_false, Option.some.injEq, Statement.call.injEq,
        Ty.derived.injEq,
        and_true]
      exact and_congr_right fun _ => eq_comm

omit [DecidableEq Name] in
theorem initStatement_eq_assign {c target : Declared Name Value n} {init : Initializer Name Value} :
    initStatement c = some (.assign target init) ↔ c.type = .intrinsic ∧ c.init = some init ∧
      target = c := by
  unfold initStatement
  cases htype : c.type with
  | intrinsic =>
    simp only [Option.map_eq_some_iff, Statement.assign.injEq, true_and]
    constructor
    · rintro ⟨init, hinit, rfl, rfl⟩
      exact ⟨hinit, rfl⟩
    · rintro ⟨hinit, rfl⟩
      exact ⟨init, hinit, rfl, rfl⟩
  | derived u => simp

omit [DecidableEq Name] in
theorem call_mem_typeInitBody {t u : Fin n} {target : Declared Name Value n} :
    .call u target ∈ P.typeInitBody t ↔
      target ∈ (P.types t).comps ∧ target.init.isSome ∧ target.IsRecord u := by
  rw [typeInitBody, mem_filterMap]
  constructor
  · rintro ⟨c, hc, hcall⟩
    obtain ⟨hrecord, rfl⟩ := initStatement_eq_call.1 hcall
    obtain ⟨hmem, hinit⟩ := mem_filter.1 hc
    exact ⟨hmem, hinit, hrecord⟩
  · rintro ⟨hmem, hinit, hrecord⟩
    exact ⟨target, mem_filter.2 ⟨hmem, hinit⟩, initStatement_eq_call.2 ⟨hrecord, rfl⟩⟩

omit [DecidableEq Name] in
theorem mem_globalInitedVars : v ∈ P.globalInitedVars ↔ v ∈ P.vars ∧ v.IsInited := by
  rw [globalInitedVars, mem_filter, Bool.and_eq_true, Bool.or_eq_true,
    Bool.not_eq_true', bne_iff_ne]
  exact and_congr_right fun _ => ⟨fun h => ⟨h.1, h.2⟩, fun h => ⟨h.1, h.2⟩⟩

omit [DecidableEq Name] in
theorem mem_globalInitBody {vs : Global Name Value n × Statement Name Value n} :
    vs ∈ P.globalInitBody ↔ vs.1 ∈ P.vars ∧ vs.1.IsInited ∧
      initStatement vs.1.decl = some vs.2 := by
  rw [globalInitBody, mem_filterMap]
  constructor
  · rintro ⟨v, hv, hstmt⟩
    obtain ⟨s, hs, rfl⟩ := Option.map_eq_some_iff.1 hstmt
    obtain ⟨hmem, hinited⟩ := mem_globalInitedVars.1 hv
    exact ⟨hmem, hinited, hs⟩
  · rintro ⟨hmem, hinited, hs⟩
    exact ⟨vs.1, mem_globalInitedVars.2 ⟨hmem, hinited⟩, by rw [hs]; rfl⟩

omit [DecidableEq Name] in
/-- The variables that get a statement. -/
theorem exists_initStatement (h : v.IsInited) : (∃ s, initStatement v.decl = some s) ↔ v.IsSet := by
  constructor
  · rintro ⟨s, hs⟩
    refine ⟨h, ?_⟩
    cases s with
    | call t target => exact .inr (initStatement_eq_call.1 hs).1.2
    | assign target init => exact .inl (initStatement_eq_assign.1 hs).1
  · intro hset
    cases htype : v.decl.type with
    | intrinsic =>
      obtain ⟨init, hinit⟩ := Option.isSome_iff_exists.1
        (h.inited.resolve_left fun hne => hne htype)
      exact ⟨_, initStatement_eq_assign.2 ⟨htype, hinit, rfl⟩⟩
    | derived t =>
      have hshape := hset.no_array.resolve_left (by rw [htype]; nofun)
      exact ⟨_, initStatement_eq_call.2 ⟨⟨htype, hshape⟩, rfl⟩⟩

omit [DecidableEq Name] in
theorem usedInit_iff {t : Fin n} : P.UsedInit t ↔ P.HasRecord t := by
  unfold UsedInit HasRecord
  refine or_congr ?_ ?_
  · simp only [call_mem_typeInitBody]
  · constructor
    · rintro ⟨v, target, hmem⟩
      obtain ⟨hv, hinited, hstmt⟩ := mem_globalInitBody.1 hmem
      exact ⟨v, hv, hinited.no_const, (initStatement_eq_call.1 hstmt).1⟩
    · rintro ⟨v, hv, hvar, hrecord⟩
      refine ⟨v, v.decl, mem_globalInitBody.2 ⟨hv, ⟨hvar, .inl ?_⟩,
        initStatement_eq_call.2 ⟨hrecord, rfl⟩⟩⟩
      rw [hrecord.1]
      nofun

omit [DecidableEq Name] in
/-- **The generated text is Fortran** exactly for declarations that can be imported. -/
theorem compiles_iff : P.Compiles ↔ P.Importable := by
  have hset : ∀ {v : Global Name Value n}, v ∈ P.vars → v.IsSet →
      ∃ s, (v, s) ∈ P.globalInitBody := by
    intro v hv hset
    obtain ⟨s, hs⟩ := (exists_initStatement hset.toIsInited).2 hset
    exact ⟨s, mem_globalInitBody.2 ⟨hv, hset.toIsInited, hs⟩⟩
  have hget : ∀ {vs}, vs ∈ P.globalInitBody → vs.1 ∈ P.vars ∧ vs.1.IsSet := by
    intro vs hvs
    obtain ⟨hv, hinited, hs⟩ := mem_globalInitBody.1 hvs
    exact ⟨hv, (exists_initStatement hinited).1 ⟨_, hs⟩⟩
  constructor
  · intro h
    refine ⟨fun t ht c hc hinit u hu => ?_, fun v hv hvset w hw hwin hname => ?_,
      fun v hv hvar htype init hinit => ?_, fun v hv hin => ?_, fun v hv hvset => ?_⟩
    · exact h.noSelfUse t u c (usedInit_iff.2 ht) (call_mem_typeInitBody.2 ⟨hc, hinit, hu⟩)
    · obtain ⟨s, hs⟩ := hset hv hvset
      exact h.apart _ hs w (mem_globalInitedVars.2 ⟨hw, hwin⟩) hname
    · refine h.closed v v.decl init (mem_globalInitBody.2 ⟨hv, ⟨hvar, .inr ?_⟩, ?_⟩)
      · rw [hinit]
        rfl
      · exact initStatement_eq_assign.2 ⟨htype, hinit, rfl⟩
    · exact h.imported v (mem_globalInitedVars.2 ⟨hv, hin⟩)
    · obtain ⟨s, hs⟩ := hset hv hvset
      exact h.changed _ hs
  · intro h
    refine ⟨fun t u target ht hcall => ?_, fun vs hvs w hw hname => ?_, fun v target init hvs => ?_,
      fun v hv => ?_, fun vs hvs => ?_⟩
    · obtain ⟨hc, hinit, hu⟩ := call_mem_typeInitBody.1 hcall
      exact h.otherModule t (usedInit_iff.1 ht) target hc hinit u hu
    · obtain ⟨hw, hwin⟩ := mem_globalInitedVars.1 hw
      exact h.oneModule _ (hget hvs).1 (hget hvs).2 w hw hwin hname
    · obtain ⟨hv, hin, hstmt⟩ := mem_globalInitBody.1 hvs
      obtain ⟨htype, hinit, -⟩ := initStatement_eq_assign.1 hstmt
      exact h.unnamed v hv hin.no_const htype init hinit
    · obtain ⟨hv, hin⟩ := mem_globalInitedVars.1 hv
      exact h.noPrivate v hv hin
    · exact h.noProtected _ (hget hvs).1 (hget hvs).2

/-! ## One call -/

theorem initVariable_iff (hnames : ∀ t, ((P.types t).comps.map Declared.name).Nodup)
    (hconst : v.const = false) :
    (∀ o, initVariable P.typeInit v o = some (overlay (P.fortranInit v.decl) o)) ↔
      P.VariablePlain v.decl := by
  unfold initVariable initStatement VariablePlain
  rw [hconst]
  simp only [Bool.false_eq_true, if_false]
  cases htype : v.decl.type with
  | intrinsic =>
    simp only [iff_true]
    intro o
    cases hinit : v.decl.init with
    | none =>
      refine congrArg some (overlay_eq_self_iff.2 (fun p => ?_) o).symm
      rw [fortranInit, hinit, htype]
    | some init =>
      refine congrArg some (assignInit_eq_overlay_iff.2 (fun p => ?_) o)
      rw [fortranInit, hinit, isDeclaredPart, htype]
  | derived t =>
    simp only
    cases hshape : v.decl.shape with
    | true =>
      simp only [if_true]
      rw [← overlay_eq_self_iff]
      exact forall_congr' fun o =>
        ⟨fun h => (Option.some.inj h).symm, fun h => congrArg some h.symm⟩
    | false =>
      simp only [Bool.false_eq_true, if_false, Statement.run]
      cases hind : v.decl.indirect with
      | true => simp
      | false =>
        simp only [Bool.false_eq_true, if_false, true_and]
        exact typeInit_iff hnames t _

/-- What Fortran makes of a variable. -/
theorem initialised_of_mem (hvars : (P.vars.map fun v => (v.module, v.decl.name)).Nodup)
    (hv : v ∈ P.vars) (s : Store Name Value) : P.initialised s (v.module, v.decl.name) =
      if v.const then s (v.module, v.decl.name)
      else overlay (P.fortranInit v.decl) (s (v.module, v.decl.name)) := by
  have hsame : ∀ w ∈ P.vars, (w.module, w.decl.name) = (v.module, v.decl.name) → w = v :=
    fun w hw h =>
    inj_on_of_nodup_map hvars hw hv h
  funext p
  unfold initialised
  cases hconst : v.const with
  | true =>
    have hnone : P.vars.find? (fun w => (w.module, w.decl.name) = (v.module, v.decl.name) ∧
        w.const = false) = none := by
      rw [List.find?_eq_none]
      intro w hw hwv
      obtain ⟨hkey, hwconst⟩ := of_decide_eq_true hwv
      rw [hsame w hw hkey, hconst] at hwconst
      exact absurd hwconst (by simp)
    rw [hnone]
    rfl
  | false =>
    have hfind : P.vars.find? (fun w => (w.module, w.decl.name) = (v.module, v.decl.name) ∧
      w.const = false) =
        some v := by
      have hsome : (P.vars.find? fun w => (w.module, w.decl.name) = (v.module, v.decl.name) ∧
          w.const = false).isSome := by
        rw [List.find?_isSome]
        exact ⟨v, hv, by simp [hconst]⟩
      obtain ⟨w, hw⟩ := Option.isSome_iff_exists.1 hsome
      have hp := List.find?_some hw
      rw [decide_eq_true_iff] at hp
      rw [hw, hsame w (mem_of_find?_eq_some hw) hp.1]
    rw [hfind]
    rfl

theorem initialised_of_notMem {k : Name × Name}
    (hk : k ∉ P.vars.map fun v => (v.module, v.decl.name))
    (s : Store Name Value) : P.initialised s k = s k := by
  have hnone : P.vars.find? (fun w => (w.module, w.decl.name) = k ∧ w.const = false) = none := by
    rw [List.find?_eq_none]
    intro w hw hwk
    exact hk (mem_map.2 ⟨w, hw, (of_decide_eq_true hwk).1⟩)
  funext p
  rw [initialised, hnone]

/-- **One call initialises all variables** exactly where each of them is plain. -/
theorem globalInitFn_iff (hnames : ∀ t, ((P.types t).comps.map Declared.name).Nodup)
    (hvars : (P.vars.map fun v => (v.module, v.decl.name)).Nodup) :
    (∀ s, P.globalInitFn s = some (P.initialised s)) ↔
      ∀ v ∈ P.vars, v.const = false → P.VariablePlain v.decl := by
  have hcells : ∀ s, P.globalInitFn s = some (P.initialised s) ↔
      (∀ v ∈ P.vars, initVariable P.typeInit v (s (v.module, v.decl.name)) =
        some (P.initialised s (v.module, v.decl.name))) ∧
      (∀ k ∉ P.vars.map fun v => (v.module, v.decl.name), P.initialised s k = s k) ∧ () = () :=
        fun s => by
    rw [globalInitFn_eq]
    exact (storeCells Name Value).foldlM_eq_some_iff hvars
  constructor
  · intro h v hv hconst
    refine (initVariable_iff hnames hconst).1 fun o => ?_
    have hstep := ((hcells fun _ => o).1 (h _)).1 v hv
    rwa [initialised_of_mem hvars hv, hconst, if_neg (by simp)] at hstep
  · intro h s
    refine (hcells s).2 ⟨fun v hv => ?_, fun k hk => initialised_of_notMem hk s, rfl⟩
    rw [initialised_of_mem hvars hv]
    cases hconst : v.const with
    | true =>
      rw [initVariable, hconst]
      rfl
    | false =>
      rw [if_neg (by simp)]
      exact (initVariable_iff hnames hconst).2 (h v hv hconst) _

/-! ## All calls -/

/-- Start by start: the stores are the same exactly where every segment keeps what is
initialised. -/
theorem generatedStores_iff (honce : ∀ s, P.globalInitFn s = some (P.initialised s))
    (segments : List (Store Name Value → Store Name Value)) (s : Store Name Value) :
    P.generatedStores s segments = some (fortranStores (P.initialised s) segments) ↔
      P.SegmentsKeep (P.initialised s) segments := by
  have hcons : ∀ segment segments s, P.generatedStores s (segment :: segments) =
      (P.generatedStores (segment (P.initialised s)) segments).map (P.initialised s :: ·) := by
    intro segment segments s
    rw [generatedStores, honce s]
    cases hrest : P.generatedStores (segment (P.initialised s)) segments with
    | none => simp [hrest]
    | some stores => simp [hrest]
  -- on the segments; each start of an entry point initialises again
  induction segments generalizing s with
  | nil => exact iff_of_true rfl trivial
  | cons segment segments ih =>
    rw [hcons, fortranStores]
    cases segments with
    | nil => exact iff_of_true rfl trivial
    | cons next segments =>
      rw [SegmentsKeep]
      constructor
      · intro h
        obtain ⟨stores, hstores, heq⟩ := Option.map_eq_some_iff.1 h
        obtain rfl := (List.cons.inj heq).2
        have hfirst : P.initialised (segment (P.initialised s)) = segment (P.initialised s) := by
          rw [hcons] at hstores
          obtain ⟨rest, -, hrest⟩ := Option.map_eq_some_iff.1 hstores
          exact (List.cons.inj hrest).1
        have hkeep := ih (segment (P.initialised s))
        rw [hfirst] at hkeep
        exact ⟨hfirst, hkeep.1 hstores⟩
      · rintro ⟨hfirst, hrest⟩
        have hkeep := ih (segment (P.initialised s))
        rw [hfirst] at hkeep
        rw [hkeep.2 hrest]
        rfl

omit [DecidableEq Name] in
/-- The own components of a type have distinct names. -/
theorem WellFormed.ownNames (hP : P.WellFormed) (t : Fin n) :
    ((P.types t).comps.map Declared.name).Nodup := by
  have h := hP.names t
  rw [components, map_append] at h
  exact (nodup_append.1 h).2.1

/-- `INTEGER :: a = 1` -/
def counter : Declared ℕ ℕ 2 := ⟨0, .intrinsic, false, false, some ⟨false, fun _ => 1⟩⟩

theorem neZeroTwo : @NeZero ℕ Zero.ofOfNat0 2 := ⟨by decide⟩

attribute [local instance] neZeroTwo

/-- `TYPE t0; INTEGER :: a = 1; END TYPE`, `TYPE t1; TYPE(t0) :: i; END TYPE` and one variable, in
one module. -/
def oneVariable (t : Fin 2) : Program ℕ ℕ 2 where
  types := fun u => if u = 0 then ⟨0, none, [counter]⟩
    else ⟨0, none, [⟨1, .derived 0, false, false, none⟩]⟩
  vars := [⟨0, false, .everywhere, ⟨2, .derived t, false, false, none⟩⟩]

theorem oneVariable_components (t : Fin 2) :
    (oneVariable t).components 0 = [counter] ∧
      (oneVariable t).components 1 = [⟨1, .derived 0, false, false, none⟩] := by
  constructor
  · rw [components]
    rfl
  · rw [components]
    rfl

theorem oneVariable_wellFormed (t : Fin 2) : (oneVariable t).WellFormed where
  direct := by
    intro u c hc w hw _
    by_cases hu : u = 0
    · subst hu
      obtain rfl : c = counter := mem_singleton.1 hc
      exact absurd hw nofun
    · obtain rfl : u = 1 := by omega
      obtain rfl := mem_singleton.1 hc
      obtain rfl : (0 : Fin 2) = w := by simpa using hw
      decide
  extended := by
    intro u w h
    by_cases hu : u = 0
    · subst hu
      exact absurd h nofun
    · obtain rfl : u = 1 := by omega
      exact absurd h nofun
  names := by
    intro u
    by_cases hu : u = 0
    · rw [hu, (oneVariable_components t).1]
      exact nodup_singleton _
    · obtain rfl : u = 1 := by omega
      rw [(oneVariable_components t).2]
      exact nodup_singleton _
  vars := nodup_singleton _

theorem typeDefault_inner (t : Fin 2) (x : ℕ) (q : Path ℕ) :
    (oneVariable t).typeDefault 0 (.component x :: q) =
    if x = 0 ∧ q = [] then some 1 else none := by
  rw [typeDefault, (oneVariable_components t).1]
  by_cases hx : x = 0
  · subst hx
    cases q with
    | nil => rfl
    | cons a q =>
      cases a with
      | element i => cases q <;> rfl
      | component y => rfl
  · have hfind : [counter].find? (fun c => decide (c.name = x)) = none := by
      simpa [counter] using Ne.symm hx
    rw [hfind, if_neg fun h => hx h.1]

end Program

end GlobalInit
