/-
# `PropagateShapes`

The extents of a call's actual arguments are stamped by name on the dummies' declares, call after
call and sweep after sweep.  A name that another site disagrees with becomes the empty string, which
the next site takes for a dimension nobody has named yet.
-/
import Mathlib.Data.List.Induction
import Mathlib.Logic.Function.Iterate

open List

namespace ShapeHints

/-! ## The pass -/

/-- What defines an actual argument; a shape is given by the names `traceToDecl` finds for its
extents, the empty one where it finds none. -/
inductive Actual
  | rebox (shape : Option (List String)) (box : Actual)
  | embox (shape : Option (List String)) (memref : Actual)
  | declare (shape : Option (List String))
  | convert (value : Actual)
  | other

/-- `limits::kShapeWalkDepth` -/
def kShapeWalkDepth : ℕ := 20

def walkShape : ℕ → Actual → List String
  | 0, _ => []
  | _ + 1, .rebox (some extents) _ => extents
  | n + 1, .rebox none box => walkShape n box
  | _ + 1, .embox (some extents) _ => extents
  | n + 1, .embox none memref => walkShape n memref
  | _ + 1, .declare shape => shape.getD []
  | n + 1, .convert value => walkShape n value
  | _ + 1, .other => []

def traceShapeAtCallSite (actual : Actual) : List String := walkShape kShapeWalkDepth actual

def mergeName (old neu : String) : String :=
  if old = "" then neu else if neu = "" ∨ old = neu then old else ""

def mergeHint (existing : Option (List String)) (fresh : List String) : List String :=
  fresh.mapIdx fun i neu => mergeName ((existing.getD [])[i]?.getD "") neu

/-- A formal of a function: whether `findEntryDeclare` finds its declare and whether that one
`hasLocalShape`. -/
structure Dummy where
  declared : Bool
  localShape : Bool

structure Func where
  name : String
  external : Bool
  args : List Dummy

structure Call where
  callee : Option String
  args : List Actual

/-- The calls in the order of the walk. -/
structure Module where
  funcs : List Func
  calls : List Call

def Module.lookup (M : Module) (name : String) : Option Func := M.funcs.find? fun f => f.name = name

/-- The `kShapeHintAttr` of the declare of a function's argument. -/
abbrev Hints := String → ℕ → Option (List String)

def setHint (hints : Hints) (g : String) (i : ℕ) (names : List String) : Hints :=
  fun g' i' => if g' = g ∧ i' = i then some names else hints g' i'

/-- The names one argument of a call brings to the formal. -/
def argSite (f : Func) (i : ℕ) (actual : Actual) : Option (List String) :=
  match f.args[i]? with
  | none => none
  | some d =>
    if d.declared = false ∨ d.localShape = true then none
    else if (traceShapeAtCallSite actual).isEmpty then none
    else if ∀ n ∈ traceShapeAtCallSite actual, n = "" then none
    else some (traceShapeAtCallSite actual)

def sweepArg (f : Func) (i : ℕ) (actual : Actual) (st : Hints × Bool) : Hints × Bool :=
  match argSite f i actual with
  | none => st
  | some names =>
    let merged := mergeHint (st.1 f.name i) names
    if st.1 f.name i = some merged then st else (setHint st.1 f.name i merged, true)

def sweepArgs (f : Func) : ℕ → List Actual → Hints × Bool → Hints × Bool
  | _, [], st => st
  | i, actual :: rest, st => sweepArgs f (i + 1) rest (sweepArg f i actual st)

def sweepCall (M : Module) (st : Hints × Bool) (call : Call) : Hints × Bool :=
  match call.callee.bind M.lookup with
  | none => st
  | some f => if f.external then st else sweepArgs f 0 call.args st

/-- One sweep, and whether it changed a hint. -/
def sweep (M : Module) (hints : Hints) : Hints × Bool := M.calls.foldl (sweepCall M) (hints, false)

def rounds (M : Module) : ℕ → Hints → Hints
  | 0, hints => hints
  | n + 1, hints => if (sweep M hints).2 then rounds M n (sweep M hints).1 else (sweep M hints).1

def runOnOperation (M : Module) : Hints := rounds M 16 fun _ _ => none

/-! ## The sites of a dummy -/

/-- What a call brings to the argument `i` of `g`. -/
def callSite (M : Module) (g : String) (i : ℕ) (call : Call) : Option (List String) :=
  (call.callee.bind M.lookup).bind fun f =>
    if f.external = true ∨ f.name ≠ g then none else call.args[i]?.bind (argSite f i)

/-- The call sites of a dummy, as far as an extent of theirs resolves to a name. -/
def sitesOf (M : Module) (g : String) (i : ℕ) : List (List String) :=
  M.calls.filterMap (callSite M g i)

/-- What the sites make of a hint, one after the other. -/
def mergeAll (sites : List (List String)) (hint : Option (List String)) : Option (List String) :=
  sites.foldl (fun hint names => some (mergeHint hint names)) hint

theorem sweepArg_hint (f : Func) (i : ℕ) (actual : Actual) (st : Hints × Bool)
    (g : String) (j : ℕ) :
    (sweepArg f i actual st).1 g j =
      if g = f.name ∧ j = i then mergeAll (argSite f i actual).toList (st.1 g j) else st.1 g j := by
  unfold sweepArg
  cases hsite : argSite f i actual with
  | none =>
    split_ifs <;> rfl
  | some names =>
    by_cases hsame : st.1 f.name i = some (mergeHint (st.1 f.name i) names)
    · simp only [if_pos hsame]
      split_ifs with h
      · obtain ⟨rfl, rfl⟩ := h
        exact hsame
      · rfl
    · simp only [if_neg hsame, setHint]
      split_ifs with h
      · obtain ⟨rfl, rfl⟩ := h
        rfl
      · rfl

theorem sweepArgs_hint (f : Func) (g : String) (j : ℕ) (args : List Actual) :
    ∀ (i : ℕ) (st : Hints × Bool), (sweepArgs f i args st).1 g j =
      if g = f.name ∧ i ≤ j then
        mergeAll (args[j - i]?.bind (argSite f j)).toList (st.1 g j)
      else st.1 g j := by
  induction args with
  | nil =>
    intro i st
    simp [sweepArgs, mergeAll]
  | cons actual rest ih =>
    intro i st
    rw [sweepArgs, ih, sweepArg_hint]
    by_cases hg : g = f.name
    · rcases Nat.lt_trichotomy j i with hlt | rfl | hgt
      · have h1 : ¬ (i + 1 ≤ j) := by omega
        have h2 : ¬ (i ≤ j) := by omega
        have h3 : j ≠ i := by omega
        simp [hg, h1, h2, h3]
      · have h1 : ¬ (j + 1 ≤ j) := by omega
        simp [hg, h1]
      · have h1 : i + 1 ≤ j := by omega
        have h2 : i ≤ j := by omega
        have h3 : j ≠ i := by omega
        have h4 : j - i = (j - (i + 1)) + 1 := by omega
        simp [hg, h1, h2, h3, h4]
    · simp [hg]

variable (M : Module)

theorem sweepCall_hint (st : Hints × Bool) (call : Call) (g : String) (i : ℕ) :
    (sweepCall M st call).1 g i = mergeAll (callSite M g i call).toList (st.1 g i) := by
  unfold sweepCall callSite
  cases hf : call.callee.bind M.lookup with
  | none => rfl
  | some f =>
    cases hext : f.external with
    | true => simp [hext, mergeAll]
    | false =>
      simp only [Bool.false_eq_true, if_false, sweepArgs_hint, Nat.zero_le, and_true, Nat.sub_zero,
        Option.bind_some, false_or, hext]
      by_cases hg : g = f.name
      · simp [hg]
      · have hg' : f.name ≠ g := fun h => hg h.symm
        simp [hg, hg', mergeAll]

theorem mergeAll_append (sites sites' : List (List String)) (hint : Option (List String)) :
    mergeAll (sites ++ sites') hint = mergeAll sites' (mergeAll sites hint) :=
  foldl_append

theorem foldl_sweepCall (g : String) (i : ℕ) (calls : List Call) :
    ∀ st : Hints × Bool, (calls.foldl (sweepCall M) st).1 g i =
      mergeAll (calls.filterMap (callSite M g i)) (st.1 g i) := by
  induction calls with
  | nil => exact fun st => rfl
  | cons call calls ih =>
    intro st
    rw [foldl_cons, ih, sweepCall_hint, ← mergeAll_append]
    cases h : callSite M g i call <;> simp [h]

/-- A sweep merges the sites of every dummy. -/
theorem sweep_hint (hints : Hints) (g : String) (i : ℕ) :
    (sweep M hints).1 g i = mergeAll (sitesOf M g i) (hints g i) :=
  foldl_sweepCall M g i M.calls (hints, false)

/-! ## Rounds -/

theorem sweepArg_unchanged {f : Func} {i : ℕ} {actual : Actual} {st : Hints × Bool}
    (h : (sweepArg f i actual st).2 = false) : sweepArg f i actual st = st := by
  unfold sweepArg at h ⊢
  cases hsite : argSite f i actual with
  | none => rfl
  | some names =>
    simp only [hsite] at h ⊢
    split_ifs at h ⊢ with hsame
    · rfl

theorem sweepArgs_unchanged {f : Func} {args : List Actual} :
    ∀ {i : ℕ} {st : Hints × Bool}, (sweepArgs f i args st).2 = false →
      sweepArgs f i args st = st := by
  induction args with
  | nil => exact fun _ => rfl
  | cons actual rest ih =>
    intro i st h
    rw [sweepArgs] at h ⊢
    have hrest := ih h
    rw [hrest] at h ⊢
    exact sweepArg_unchanged h

theorem sweepCall_unchanged {M : Module} {st : Hints × Bool} {call : Call}
    (h : (sweepCall M st call).2 = false) : sweepCall M st call = st := by
  unfold sweepCall at h ⊢
  cases hf : call.callee.bind M.lookup with
  | none => rfl
  | some f =>
    simp only [hf] at h ⊢
    split_ifs at h ⊢ with hext
    · rfl
    · exact sweepArgs_unchanged h

theorem foldl_unchanged {M : Module} {calls : List Call} :
    ∀ {st : Hints × Bool}, (calls.foldl (sweepCall M) st).2 = false →
      calls.foldl (sweepCall M) st = st := by
  induction calls with
  | nil => exact fun _ => rfl
  | cons call calls ih =>
    intro st h
    rw [foldl_cons] at h ⊢
    have hrest := ih h
    rw [hrest] at h ⊢
    exact sweepCall_unchanged h

/-- The rounds are sweeps, for after a sweep that changed nothing another one changes nothing. -/
theorem rounds_eq (n : ℕ) : ∀ hints, rounds M n hints =
    (fun hints => (sweep M hints).1)^[n] hints := by
  induction n with
  | zero => exact fun hints => rfl
  | succ n ih =>
    intro hints
    rw [rounds, Function.iterate_succ_apply]
    split_ifs with hchanged
    · exact ih _
    · have hflag : (sweep M hints).2 = false := Bool.eq_false_iff.2 hchanged
      have h : sweep M hints = (hints, false) := foldl_unchanged hflag
      have hfix : (sweep M hints).1 = hints := by rw [h]
      have hiterate : (fun hints => (sweep M hints).1)^[n] hints = hints :=
        Function.iterate_fixed hfix n
      rw [hfix, hiterate]

theorem iterate_hint (g : String) (i : ℕ) (n : ℕ) : ∀ hints : Hints,
    ((fun hints => (sweep M hints).1)^[n] hints) g i =
      (mergeAll (sitesOf M g i))^[n] (hints g i) := by
  induction n with
  | zero => exact fun hints => rfl
  | succ n ih =>
    intro hints
    rw [Function.iterate_succ_apply, Function.iterate_succ_apply, ih, sweep_hint]

theorem runOnOperation_hint (g : String) (i : ℕ) :
    runOnOperation M g i = (mergeAll (sitesOf M g i))^[16] none := by
  rw [runOnOperation, rounds_eq, iterate_hint]

/-! ## One dimension -/

/-- The name a dimension carries. -/
def dimName (hint : Option (List String)) (k : ℕ) : String := (hint.getD [])[k]?.getD ""

/-- A site without the dimension leaves none; one that does not know its name leaves it as it is. -/
def dimStep (old : String) (site : Option String) : String :=
  match site with
  | none => ""
  | some neu => mergeName old neu

theorem dimName_mergeHint (hint : Option (List String)) (names : List String) (k : ℕ) :
    dimName (some (mergeHint hint names)) k = dimStep (dimName hint k) names[k]? := by
  unfold dimName mergeHint
  simp only [Option.getD_some, List.getElem?_mapIdx]
  cases names[k]? <;> rfl

/-- What the sites have for a dimension. -/
def column (sites : List (List String)) (k : ℕ) : List (Option String) :=
  sites.map fun names => names[k]?

def mergeColumn (sites : List (Option String)) (old : String) : String := sites.foldl dimStep old

theorem dimName_mergeAll (sites : List (List String)) (k : ℕ) :
    ∀ hint, dimName (mergeAll sites hint) k = mergeColumn (column sites k) (dimName hint k) := by
  induction sites with
  | nil => exact fun hint => rfl
  | cons names sites ih =>
    intro hint
    have h : mergeAll (names :: sites) hint = mergeAll sites (some (mergeHint hint names)) := rfl
    rw [h, ih, dimName_mergeHint]
    rfl

theorem dimName_iterate (sites : List (List String)) (k : ℕ) (n : ℕ) :
    ∀ hint, dimName ((mergeAll sites)^[n] hint) k =
      (mergeColumn (column sites k))^[n] (dimName hint k) := by
  induction n with
  | zero => exact fun hint => rfl
  | succ n ih =>
    intro hint
    rw [Function.iterate_succ_apply, Function.iterate_succ_apply, ih, dimName_mergeAll]

variable (sites : List (Option String))

/-- A name that is left is one of the sites' or was there before. -/
theorem mergeColumn_mem :
    ∀ old, mergeColumn sites old ≠ "" → mergeColumn sites old = old ∨
      some (mergeColumn sites old) ∈ sites := by
  induction sites with
  | nil => exact fun old _ => .inl rfl
  | cons site sites ih =>
    intro old h
    have hcons : mergeColumn (site :: sites) old = mergeColumn sites (dimStep old site) := rfl
    rw [hcons] at h ⊢
    rcases ih _ h with hold | hmem
    · rw [hold] at h ⊢
      cases site with
      | none => exact absurd rfl h
      | some neu =>
        simp only [dimStep, mergeName] at h ⊢
        split_ifs at h ⊢ with h1 h2
        · exact .inr mem_cons_self
        · exact .inl rfl
        · exact absurd rfl h
    · exact .inr (mem_cons_of_mem _ hmem)

/-- Sites that know no other name keep it. -/
theorem mergeColumn_keeps {x : String} (hnone : none ∉ sites)
    (hx : ∀ n, some n ∈ sites → n ≠ "" → n = x) : mergeColumn sites x = x := by
  induction sites with
  | nil => rfl
  | cons site sites ih =>
    have hrest := ih (fun h => hnone (mem_cons_of_mem _ h))
      (fun n hn => hx n (mem_cons_of_mem _ hn))
    have hcons : mergeColumn (site :: sites) x = mergeColumn sites (dimStep x site) := rfl
    cases site with
    | none => exact absurd mem_cons_self hnone
    | some neu =>
      have hstep : dimStep x (some neu) = x := by
        simp only [dimStep, mergeName]
        by_cases hneu : neu = ""
        · split_ifs with h1 h2
          · rw [hneu, h1]
          · rfl
          · exact absurd (.inl hneu) h2
        · have h := hx neu mem_cons_self hneu
          split_ifs with h1 h2
          · exact h
          · rfl
          · exact absurd (.inr h.symm) h2
      rw [hcons, hstep, hrest]

/-- After a site without the dimension nothing of what was there is left. -/
theorem mergeColumn_forgets (hnone : none ∈ sites) :
    ∀ old old', mergeColumn sites old = mergeColumn sites old' := by
  induction sites with
  | nil => cases hnone
  | cons site sites ih =>
    intro old old'
    rcases mem_cons.1 hnone with rfl | hnone
    · rfl
    · exact ih hnone _ _

/-! ## Sites that take each other's names away -/

/-- The names of the sites after the last one without the dimension. -/
def lastNames (sites : List (Option String)) : List String :=
  sites.foldl (fun names site => match site with
    | none => []
    | some n => if n = "" then names else names ++ [n]) []

theorem mergeColumn_lastNames :
    mergeColumn sites "" = (lastNames sites).foldl mergeName "" := by
  induction sites using List.reverseRecOn with
  | nil => rfl
  | append_singleton sites site ih =>
    have happend : mergeColumn (sites ++ [site]) "" = dimStep (mergeColumn sites "") site := by
      simp [mergeColumn]
    rw [happend, ih]
    unfold lastNames
    rw [foldl_append, foldl_cons, foldl_nil]
    cases site with
    | none => rfl
    | some n =>
      by_cases hn : n = ""
      · subst hn
        simp only [if_true, dimStep, mergeName]
        split_ifs with h
        · exact h.symm
        · rfl
        · simp_all
      · simp only [if_neg hn, foldl_append]
        rfl

theorem lastNames_ne_empty : ∀ n ∈ lastNames sites, n ≠ "" := by
  induction sites using List.reverseRecOn with
  | nil => exact fun n hn => absurd hn not_mem_nil
  | append_singleton sites site ih =>
    intro n hn
    unfold lastNames at hn
    rw [foldl_append, foldl_cons, foldl_nil] at hn
    cases site with
    | none => cases hn
    | some m =>
      by_cases hm : m = ""
      · simp only [if_pos hm] at hn
        exact ih n hn
      · simp only [if_neg hm] at hn
        rcases mem_append.1 hn with hn | hn
        · exact ih n hn
        · rw [mem_singleton.1 hn]
          exact hm

/-- The names come in groups: one name some times, then another one once. -/
inductive Cancels : List String → Prop
  | nil : Cancels []
  | pair {y z : String} {rest : List String} (hne : y ≠ z) (h : Cancels rest) :
      Cancels (y :: z :: rest)
  | same {y : String} {rest : List String} (h : Cancels (y :: rest)) : Cancels (y :: y :: rest)

theorem foldl_mergeName_iff (names : List String) (hnames : ∀ n ∈ names, n ≠ "") :
    (names.foldl mergeName "" = "" ↔ Cancels names) ∧
      ∀ y, y ≠ "" → (names.foldl mergeName y = "" ↔ Cancels (y :: names)) := by
  induction names with
  | nil =>
    refine ⟨⟨fun _ => .nil, fun _ => rfl⟩, ?_⟩
    intro y hy
    refine ⟨fun h => absurd h hy, ?_⟩
    intro h
    cases h
  | cons n names ih =>
    have hn : n ≠ "" := hnames n mem_cons_self
    obtain ⟨hempty, hname⟩ := ih fun m hm => hnames m (mem_cons_of_mem n hm)
    constructor
    · have h : (n :: names).foldl mergeName "" = names.foldl mergeName n := by
        simp [mergeName]
      rw [h]
      exact hname n hn
    · intro y hy
      by_cases hyn : y = n
      · subst hyn
        have h : (y :: names).foldl mergeName y = names.foldl mergeName y := by
          simp [mergeName, hy]
        rw [h, hname y hy]
        constructor
        · exact .same
        · intro hc
          cases hc with
          | pair hne _ => exact absurd rfl hne
          | same hc => exact hc
      · have h : (n :: names).foldl mergeName y = names.foldl mergeName "" := by
          simp [mergeName, hy, hn, hyn]
        rw [h, hempty]
        constructor
        · exact .pair hyn
        · intro hc
          cases hc with
          | pair _ hc => exact hc
          | same hc => exact absurd rfl hyn

/-- One pass over the sites leaves no name. -/
theorem mergeColumn_eq_empty_iff :
    mergeColumn sites "" = "" ↔ Cancels (lastNames sites) := by
  rw [mergeColumn_lastNames]
  exact (foldl_mergeName_iff _ (lastNames_ne_empty sites)).1

/-- The sites that know a name know the same. -/
def AllAgree (sites : List (Option String)) : Prop :=
  ∀ n n', some n ∈ sites → some n' ∈ sites → n ≠ "" → n' ≠ "" → n = n'

theorem AllAgree.fixed {sites : List (Option String)} (h : AllAgree sites) :
    mergeColumn sites (mergeColumn sites "") = mergeColumn sites "" := by
  by_cases hnone : none ∈ sites
  · exact mergeColumn_forgets sites hnone _ _
  by_cases hempty : mergeColumn sites "" = ""
  · rw [hempty, hempty]
  · have hmem : some (mergeColumn sites "") ∈ sites := by
      rcases mergeColumn_mem sites "" hempty with h' | h'
      · exact absurd h' hempty
      · exact h'
    exact mergeColumn_keeps sites hnone fun n hn hne => h n _ hn hmem hne hempty

/-- A hint that is kept and agreed on. -/
def Settled (sites : List (Option String)) (name : String) : Prop :=
  mergeColumn sites name = name ∧ (name ≠ "" → ∀ n, some n ∈ sites → n ≠ "" → n = name)

theorem settled_iff (n : ℕ) :
    Settled sites ((mergeColumn sites)^[n + 1] "") ↔
      AllAgree sites ∨ Cancels (lastNames sites) := by
  constructor
  · rintro ⟨hfix, hagree⟩
    by_cases hempty : (mergeColumn sites)^[n + 1] "" = ""
    · rw [hempty] at hfix
      exact .inr ((mergeColumn_eq_empty_iff sites).1 hfix)
    · refine .inl fun m m' hm hm' hne hne' => ?_
      rw [hagree hempty m hm hne, hagree hempty m' hm' hne']
  · rintro (hagree | hcancels)
    · have hfix := hagree.fixed
      have hiterate : (mergeColumn sites)^[n + 1] "" = mergeColumn sites "" := by
        rw [Function.iterate_succ_apply, Function.iterate_fixed hfix]
      rw [hiterate]
      refine ⟨hfix, ?_⟩
      intro hempty m hm hne
      rcases mergeColumn_mem sites "" hempty with h | h
      · exact absurd h hempty
      · exact hagree m _ hm h hne hempty
    · have hfix := (mergeColumn_eq_empty_iff sites).2 hcancels
      rw [Function.iterate_fixed hfix]
      exact ⟨hfix, fun h => absurd rfl h⟩

/-! ## The hints after the pass -/

theorem length_mergeAll (sites : List (List String)) (names : List String)
    (hint : Option (List String)) :
    ∃ l, mergeAll (sites ++ [names]) hint = some l ∧ l.length = names.length := by
  refine ⟨mergeHint (mergeAll sites hint) names, ?_, ?_⟩
  · rw [mergeAll_append]
    rfl
  · simp [mergeHint]

/-- A hint is kept when each of its dimensions is. -/
theorem mergeAll_fixed_iff (sites : List (List String)) (n : ℕ) :
    mergeAll sites ((mergeAll sites)^[n + 1] none) = (mergeAll sites)^[n + 1] none ↔
      ∀ k, mergeColumn (column sites k) ((mergeColumn (column sites k))^[n + 1] "") =
        (mergeColumn (column sites k))^[n + 1] "" := by
  have hdim : ∀ k, dimName ((mergeAll sites)^[n + 1] none) k =
      (mergeColumn (column sites k))^[n + 1] "" := fun k => dimName_iterate sites k (n + 1) none
  constructor
  · intro h k
    have hk := congrArg (fun hint => dimName hint k) h
    simpa only [dimName_mergeAll, hdim] using hk
  · intro h
    rcases eq_nil_or_concat sites with rfl | ⟨sites, names, rfl⟩
    · rfl
    rw [concat_eq_append] at h hdim ⊢
    have hsucc : (mergeAll (sites ++ [names]))^[n + 1] none =
        mergeAll (sites ++ [names]) ((mergeAll (sites ++ [names]))^[n] none) :=
      Function.iterate_succ_apply' _ _ _
    obtain ⟨l, hl, hlength⟩ := length_mergeAll sites names
      ((mergeAll (sites ++ [names]))^[n + 1] none)
    obtain ⟨l', hl', hlength'⟩ := length_mergeAll sites names
      ((mergeAll (sites ++ [names]))^[n] none)
    rw [← hsucc] at hl'
    have hnames : ∀ k : ℕ, l[k]?.getD "" = l'[k]?.getD "" := by
      intro k
      have h1 : dimName (some l) k = dimName (some l') k := by
        rw [← hl, dimName_mergeAll, hdim, h k, ← hdim k, hl']
      exact h1
    rw [hl, hl']
    congr 1
    refine ext_getElem (by omega) fun k hk hk' => ?_
    have h2 := hnames k
    rwa [List.getElem?_eq_getElem hk, List.getElem?_eq_getElem hk'] at h2

/-- After the pass a dimension carries a name only if every site that knows a name knows that one,
and another sweep leaves every hint as it is. -/
def HintsAgreed (M : Module) : Prop :=
  (∀ g i k x, x ≠ "" → dimName (runOnOperation M g i) k = x →
    ∀ names ∈ sitesOf M g i, ∀ n, names[k]? = some n → n ≠ "" → n = x) ∧
  (sweep M (runOnOperation M)).1 = runOnOperation M

theorem mem_column {sites : List (List String)} {k : ℕ} {n : String} :
    some n ∈ column sites k ↔ ∃ names ∈ sites, names[k]? = some n :=
  mem_map

/-- **The hints are agreed on and a fixed point** exactly when at each dimension the sites agree or
take each other's names away. -/
theorem propagateShapes_agreed_iff (M : Module) :
    HintsAgreed M ↔ ∀ g i k, AllAgree (column (sitesOf M g i) k) ∨
      Cancels (lastNames (column (sitesOf M g i) k)) := by
  have hname : ∀ g i k, dimName (runOnOperation M g i) k =
      (mergeColumn (column (sitesOf M g i) k))^[15 + 1] "" := by
    intro g i k
    rw [runOnOperation_hint]
    exact dimName_iterate _ k 16 none
  have hfixed : (sweep M (runOnOperation M)).1 = runOnOperation M ↔
      ∀ g i k, mergeColumn (column (sitesOf M g i) k)
        ((mergeColumn (column (sitesOf M g i) k))^[15 + 1] "") =
          (mergeColumn (column (sitesOf M g i) k))^[15 + 1] "" := by
    rw [funext_iff]
    refine forall_congr' fun g => ?_
    rw [funext_iff]
    refine forall_congr' fun i => ?_
    rw [sweep_hint, runOnOperation_hint]
    exact mergeAll_fixed_iff (sitesOf M g i) 15
  unfold HintsAgreed
  rw [hfixed]
  constructor
  · rintro ⟨hagree, hfix⟩ g i k
    refine (settled_iff _ 15).1 ⟨hfix g i k, ?_⟩
    intro hne n hn hne'
    obtain ⟨names, hnames, hk⟩ := mem_column.1 hn
    exact hagree g i k _ hne (hname g i k) names hnames n hk hne'
  · intro h
    refine ⟨?_, fun g i k => ((settled_iff _ 15).2 (h g i k)).1⟩
    rintro g i k x hne rfl names hnames n hn hne'
    have hsettled := ((settled_iff _ 15).2 (h g i k)).2
    rw [← hname] at hsettled
    exact hsettled hne n (mem_column.2 ⟨names, hnames, hn⟩) hne'

/-- `call sub(a)` with `a(nx)`, with `a(ny)` and with `a(nx)` again. -/
def threeSites : Module where
  funcs := [⟨"sub", false, [⟨true, false⟩]⟩]
  calls := [⟨some "sub", [.embox (some ["nx"]) .other]⟩,
    ⟨some "sub", [.embox (some ["ny"]) .other]⟩,
    ⟨some "sub", [.embox (some ["nx"]) .other]⟩]

/-- The dummy carries `nx`, though the second site gives `ny`. -/
theorem not_agreed_threeSites : ¬ HintsAgreed threeSites := by
  intro h
  have hsites : sitesOf threeSites "sub" 0 = [["nx"], ["ny"], ["nx"]] := by decide
  have hname : dimName (runOnOperation threeSites "sub" 0) 0 = "nx" := by
    rw [runOnOperation_hint, hsites]
    decide
  have hny : ["ny"] ∈ sitesOf threeSites "sub" 0 := by
    rw [hsites]
    decide
  exact absurd (h.1 "sub" 0 0 "nx" (by decide) hname ["ny"] hny "ny" rfl (by decide)) (by decide)

end ShapeHints
