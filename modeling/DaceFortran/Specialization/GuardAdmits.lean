/-
# What the records bake in

The guard admits a call exactly when the call holds what was baked in.  Every
recorded call does for the values and for the combinations of the ranks; for the
arrays, and for the aliases, the record of some calls says nothing, and what the
others recorded is taken for all.
-/
import DaceFortran.Lib.AssocLists
import DaceFortran.Specialization.SpecializationGuard

open List

namespace SpecializationGuard

variable {frozen : Frozen}

/-! ## The guard, a group of lines at a time -/

/-- With the symbols `A` assigned, the lines record a mismatch exactly when `P` fails. -/
def Checks (call : Call frozen) (A : List Name) (lines : List Line) (P : Prop) : Prop :=
  ∀ l : Locals, l.assigned = A →
    (lines.foldl (runLine call) l).assigned = A ∧
    (lines.foldl (runLine call) l).declined = l.declined ∧
    ((lines.foldl (runLine call) l).mismatch = none ↔ l.mismatch = none ∧ P)

variable {call : Call frozen} {A : List Name}

theorem Checks.nil : Checks call A [] True := by
  intro l hA
  exact ⟨hA, rfl, by simp⟩

/-- One group of lines after another checks both. -/
theorem Checks.append {xs ys : List Line} {P Q : Prop} (hx : Checks call A xs P)
    (hy : Checks call A ys Q) : Checks call A (xs ++ ys) (P ∧ Q) := by
  intro l hA
  obtain ⟨hA₁, hd₁, hm₁⟩ := hx l hA
  obtain ⟨hA₂, hd₂, hm₂⟩ := hy _ hA₁
  rw [foldl_append]
  refine ⟨hA₂, hd₂.trans hd₁, ?_⟩
  rw [hm₂, hm₁, and_assoc]

/-- A group for each item of a list checks all of them. -/
theorem Checks.flatMap {α : Type} {items : List α} {lines : α → List Line} {P : α → Prop}
    (h : ∀ x ∈ items, Checks call A (lines x) (P x)) :
    Checks call A (items.flatMap lines) (∀ x ∈ items, P x) := by
  induction items with
  | nil => simpa using Checks.nil
  | cons x items ih =>
    have hx := h x mem_cons_self
    have hrest := ih fun y hy => h y (mem_cons_of_mem _ hy)
    simpa [forall_mem_cons] using hx.append hrest

/-- A checked expression holds a value when the call does, its symbol being assigned. -/
theorem exprHolds_source {l : Locals} {v : Name × Value}
    (hassigned : frozen.scalars.lookup v.1 = none ∧ frozen.assigns v.1 = some true →
      v.1 ∈ l.assigned) :
    exprHolds call l (frozen.source v.1) v.2 = true ↔ call.holds v := by
  rw [Frozen.source]
  split
  · next h => simp [exprHolds, hassigned h, Call.holds]
  · simp [exprHolds, Call.holds]

/-- The symbols a checked name needs are assigned. -/
def Ready (frozen : Frozen) (A : List Name) (s : Name) : Prop :=
  frozen.scalars.lookup s = none ∧ frozen.assigns s = some true → s ∈ A

variable {v : Name × Value}

theorem checks_value (hready : Ready frozen A v.1) :
    Checks call A [.mismatchIf (frozen.source v.1) v.2 v.1] (call.holds v) := by
  intro l hA
  have hholds := @exprHolds_source _ call l v (by rw [hA]; exact hready)
  by_cases h : exprHolds call l (frozen.source v.1) v.2 = true
  · simp [runLine, h, hholds.mp h, hA]
  · simp [runLine, h, mt hholds.mpr h, hA]

theorem checks_array (array : Name × List Int) :
    Checks call A (arrayLines array) (call.array array.1 = some array.2) := by
  intro l hA
  cases hheld : call.array array.1 with
  | none => simp [arrayLines, runLine, hheld, hA]
  | some held =>
    by_cases hlen : held.length = array.2.length
    · by_cases heq : held = array.2
      · simp [arrayLines, runLine, hheld, heq, hA]
      · simp [arrayLines, runLine, hheld, hlen, heq, hA]
    · have heq : held ≠ array.2 := fun h => hlen (by rw [h])
      simp [arrayLines, runLine, hheld, hlen, heq, hA]

/-- Comparing a combination clears `dace_this_rank` unless the call holds all of it. -/
theorem foldl_notThisRankIf (values : List (Name × Value)) (l : Locals)
    (hready : ∀ v ∈ values, Ready frozen l.assigned v.1) :
    ∃ b, (values.map (fun v => Line.notThisRankIf (frozen.source v.1) v.2)).foldl
        (runLine call) l = { l with thisRank := b } ∧
      (b = true ↔ l.thisRank = true ∧ ∀ v ∈ values, call.holds v) := by
  induction values generalizing l with
  | nil => exact ⟨l.thisRank, rfl, by simp⟩
  | cons v values ih =>
    have hv := @exprHolds_source _ call l v (hready v mem_cons_self)
    rw [map_cons, foldl_cons]
    by_cases h : exprHolds call l (frozen.source v.1) v.2 = true
    · obtain ⟨b, hb, hiff⟩ := ih l fun w hw => hready w (mem_cons_of_mem _ hw)
      refine ⟨b, by simpa [runLine, h] using hb, ?_⟩
      rw [hiff, forall_mem_cons]
      simp [hv.mp h]
    · obtain ⟨b, hb, hiff⟩ := ih { l with thisRank := false }
        fun w hw => hready w (mem_cons_of_mem _ hw)
      refine ⟨b, by simpa [runLine, h] using hb, ?_⟩
      rw [hiff, forall_mem_cons]
      simp [mt hv.mpr h]

/-- The combinations set `dace_some_rank` when the call holds one of them. -/
theorem foldl_rankLines (combinations : List (List (Name × Value))) (l : Locals)
    (hready : ∀ values ∈ combinations, ∀ v ∈ values, Ready frozen l.assigned v.1) :
    ∃ t b, (combinations.flatMap (rankLines frozen)).foldl (runLine call) l
        = { l with thisRank := t, someRank := b } ∧
      (b = true ↔ l.someRank = true ∨ ∃ values ∈ combinations, ∀ v ∈ values, call.holds v) := by
  induction combinations generalizing l with
  | nil => exact ⟨l.thisRank, l.someRank, rfl, by simp⟩
  | cons values combinations ih =>
    obtain ⟨b₁, hb₁, hiff₁⟩ := @foldl_notThisRankIf _ call values
      { l with thisRank := true } (hready values mem_cons_self)
    have hhead : (rankLines frozen values).foldl (runLine call) l
        = { l with thisRank := b₁, someRank := b₁ || l.someRank } := by
      rw [rankLines, cons_append, foldl_cons, foldl_append]
      show [Line.someRankIfThis].foldl (runLine call)
        (List.foldl (runLine call) { l with thisRank := true } _) = _
      rw [hb₁]
      cases b₁ <;> simp [runLine]
    rw [flatMap_cons, foldl_append, hhead]
    obtain ⟨t, b, hb, hiff⟩ := ih { l with thisRank := b₁, someRank := b₁ || l.someRank }
      fun w hw => hready w (mem_cons_of_mem _ hw)
    refine ⟨t, b, hb, ?_⟩
    rw [hiff, Bool.or_eq_true, hiff₁]
    simp only [exists_mem_cons_iff, true_and]
    tauto

theorem checks_ranks {combinations : List (List (Name × Value))}
    (hready : ∀ values ∈ combinations, ∀ v ∈ values, Ready frozen A v.1) :
    Checks call A
      (.clearSomeRank :: combinations.flatMap (rankLines frozen) ++
        [.mismatchUnlessSomeRank rankLabel])
      (∃ values ∈ combinations, ∀ v ∈ values, call.holds v) := by
  intro l hA
  obtain ⟨t, b, hb, hiff⟩ := @foldl_rankLines _ call combinations
    { l with someRank := false } (by simpa only [hA] using hready)
  rw [cons_append, foldl_cons, foldl_append]
  rw [show runLine call l .clearSomeRank = { l with someRank := false } from rfl, hb]
  have hsome : b = true ↔ ∃ values ∈ combinations, ∀ v ∈ values, call.holds v := by simpa using hiff
  cases b with
  | true =>
    refine ⟨hA, rfl, ?_⟩
    show l.mismatch = none ↔ _
    rw [and_iff_left (hsome.mp rfl)]
  | false =>
    have hnone : ¬ ∃ values ∈ combinations, ∀ v ∈ values, call.holds v :=
      fun h => by cases hsome.mpr h
    refine ⟨hA, rfl, ?_⟩
    show some rankLabel = none ↔ _
    exact iff_of_false (by simp) fun h => hnone h.2

/-- The assignments make every name ready. -/
theorem foldl_assign (names : List Name) (l : Locals) :
    (names.map Line.assign).foldl (runLine call) l
      = { l with assigned := names.reverse ++ l.assigned } := by
  induction names generalizing l with
  | nil => rfl
  | cons s names ih =>
    rw [map_cons, foldl_cons, ih]
    simp [runLine]

/-- The checks of a specialisation to ready names. -/
theorem checks_specialization {spec : Specialization}
    (hvalues : ∀ v ∈ spec.values, Ready frozen A v.1)
    (hranks : ∀ values ∈ spec.perRank, ∀ v ∈ values, Ready frozen A v.1) :
    Checks call A (checkLines frozen spec) (spec.HoldsIn call) := by
  have hvals : Checks call A
      (spec.values.map (fun v => Line.mismatchIf (frozen.source v.1) v.2 v.1))
      (∀ v ∈ spec.values, call.holds v) := by
    rw [map_eq_flatMap]
    exact Checks.flatMap fun v hv => checks_value (hvalues v hv)
  have harrays : Checks call A (spec.arrays.flatMap arrayLines)
      (∀ a ∈ spec.arrays, call.array a.1 = some a.2) :=
    Checks.flatMap fun a _ => checks_array a
  have hrank : Checks call A
      (if spec.perRank = [] then []
        else .clearSomeRank :: spec.perRank.flatMap (rankLines frozen) ++
          [.mismatchUnlessSomeRank rankLabel])
      (spec.perRank = [] ∨ ∃ values ∈ spec.perRank, ∀ v ∈ values, call.holds v) := by
    by_cases h : spec.perRank = []
    · simpa [h] using Checks.nil
    · rw [if_neg h]
      have := @checks_ranks _ call _ _ hranks
      simpa only [h, false_or] using this
  have hall := (hvals.append harrays).append hrank
  intro l hA
  obtain ⟨hassigned, hdeclined, hmismatch⟩ := hall l hA
  refine ⟨hassigned, hdeclined, ?_⟩
  rw [checkLines, hmismatch]
  constructor
  · rintro ⟨hl, ⟨hv, ha⟩, hr⟩
    exact ⟨hl, hv, ha, hr⟩
  · rintro ⟨hl, hv, ha, hr⟩
    exact ⟨hl, ⟨hv, ha⟩, hr⟩

/-- The combinations are written with finite reals. -/
def Specialization.RanksFinite (frozen : Frozen) (spec : Specialization) : Prop :=
  ∀ values ∈ spec.perRank, ∀ v ∈ values, frozen.dtype v.1 = .float → v.2.isFinite

/-- The comparison of a value is Fortran when a real is finite. -/
theorem isFortran_mismatchIf (v : Name × Value) (label : String) :
    (Line.mismatchIf (frozen.source v.1) v.2 label).IsFortran frozen ↔
      (frozen.dtype v.1 = .float → v.2.isFinite) := by
  rw [Frozen.source]
  split <;> rfl

theorem isFortran_notThisRankIf (v : Name × Value) :
    (Line.notThisRankIf (frozen.source v.1) v.2).IsFortran frozen ↔
      (frozen.dtype v.1 = .float → v.2.isFinite) := by
  rw [Frozen.source]
  split <;> rfl

/-- The checks are Fortran exactly when the values they compare with are finite. -/
theorem isFortran_checkLines {spec : Specialization} (hfinite : ∀ v ∈ spec.values, v.2.isFinite) :
    (∀ line ∈ checkLines frozen spec, line.IsFortran frozen) ↔ spec.RanksFinite frozen := by
  have hvalues : ∀ line ∈ spec.values.map fun v =>
      Line.mismatchIf (frozen.source v.1) v.2 v.1, line.IsFortran frozen := by
    intro line hline
    obtain ⟨v, hv, rfl⟩ := mem_map.mp hline
    exact (isFortran_mismatchIf v v.1).mpr fun _ => hfinite v hv
  have harrays : ∀ line ∈ spec.arrays.flatMap arrayLines, line.IsFortran frozen := by
    intro line hline
    obtain ⟨a, -, hline⟩ := mem_flatMap.mp hline
    simp only [arrayLines, mem_cons, not_mem_nil, or_false] at hline
    rcases hline with rfl | rfl | rfl <;> trivial
  have hrank : ∀ values, (∀ line ∈ rankLines frozen values, line.IsFortran frozen) ↔
      ∀ v ∈ values, frozen.dtype v.1 = .float → v.2.isFinite := by
    intro values
    simp only [rankLines, forall_mem_cons, forall_mem_append, forall_mem_map,
      isFortran_notThisRankIf]
    simp [Line.IsFortran]
  rw [checkLines, forall_mem_append, forall_mem_append, and_iff_right ⟨hvalues, harrays⟩,
    Specialization.RanksFinite]
  by_cases hempty : spec.perRank = []
  · simp [hempty]
  · simp only [if_neg hempty, cons_append, forall_mem_cons, forall_mem_append, forall_mem_flatMap,
      hrank]
    simp [Line.IsFortran]

/-- **The guard of guardable names and finite values admits exactly the calls that hold
what was baked in.** -/
theorem admits_iff (spec : Specialization)
    (hvalues : ∀ v ∈ spec.values, frozen.specializable v.1 = true)
    (hranks : ∀ values ∈ spec.perRank, ∀ v ∈ values, frozen.specializable v.1 = true)
    (hfinite : ∀ v ∈ spec.values, v.2.isFinite)
    (hwritable : unwritable frozen spec.perRank.flatten = []) :
    ∃ guard, buildSpecializationGuard frozen spec = .ok guard ∧
      ((∀ line ∈ guard, line.IsFortran frozen) ↔ spec.RanksFinite frozen) ∧
      ∀ call : Call frozen, admits guard call = true ↔ spec.HoldsIn call := by
  set rankNames := sorted (spec.perRank.flatMap (·.map Prod.fst)) with hrankNames
  set names := spec.values.map Prod.fst ++ rankNames with hnames
  have hmemValues : ∀ v ∈ spec.values, v.1 ∈ names := fun v hv =>
    mem_append_left _ (mem_map_of_mem hv)
  have hmemRanks : ∀ values ∈ spec.perRank, ∀ v ∈ values, v.1 ∈ names := by
    intro values hvals v hv
    apply mem_append_right
    rw [hrankNames, mem_sorted]
    exact mem_flatMap.mpr ⟨values, hvals, mem_map_of_mem hv⟩
  have hguardable : sorted (names.filter fun s => !frozen.specializable s) = [] := by
    rw [sorted_eq_nil, filter_eq_nil_iff]
    intro s hs
    rcases mem_append.mp hs with hs | hs
    · obtain ⟨v, hv, rfl⟩ := mem_map.mp hs
      simp [hvalues v hv]
    · rw [hrankNames, mem_sorted] at hs
      obtain ⟨values, hvals, hs⟩ := mem_flatMap.mp hs
      obtain ⟨v, hv, rfl⟩ := mem_map.mp hs
      simp [hranks values hvals v hv]
  have hnonFinite : sorted ((spec.values.filter fun v => !v.2.isFinite).map Prod.fst) = [] := by
    rw [sorted_eq_nil, map_eq_nil_iff, filter_eq_nil_iff]
    intro v hv
    simp [hfinite v hv]
  by_cases hempty : spec.values = [] ∧ spec.arrays = [] ∧ spec.perRank = []
  · refine ⟨[.accept], ?_, ?_, fun call => ?_⟩
    · simp only [buildSpecializationGuard, ← hrankNames, ← hnames, hguardable,
        hnonFinite, hwritable]
      simp [hempty]
    · simp [Specialization.RanksFinite, hempty.2.2, Line.IsFortran]
    · obtain ⟨hv, ha, hp⟩ := hempty
      have hholds : spec.HoldsIn call := ⟨by simp [hv], by simp [ha], .inl hp⟩
      simp [admits, runLine, hholds]
  -- the symbols the wrapper assigns are assigned before the checks that read them
  set toAssign := names.filter
    fun s => frozen.scalars.lookup s = none ∧ frozen.assigns s = some true with htoAssign
  have hready : ∀ s ∈ names, Ready frozen toAssign.reverse s := by
    intro s hs h
    rw [mem_reverse, htoAssign, mem_filter]
    exact ⟨hs, by simpa using h⟩
  refine ⟨[.accept, .clearMismatch] ++ toAssign.map Line.assign ++ checkLines frozen spec ++
    [.declineIfMismatch], ?_, ?_, fun call => ?_⟩
  · simp only [buildSpecializationGuard, ← hrankNames, ← hnames, hguardable, hnonFinite, hwritable,
      hempty, if_false, ne_eq, not_true_eq_false, ← htoAssign]
  · rw [← isFortran_checkLines hfinite]
    constructor
    · exact fun h line hline => h line (mem_append_left _ (mem_append_right _ hline))
    · intro h line hline
      rcases mem_append.mp hline with hline | hline
      · rcases mem_append.mp hline with hline | hline
        · rcases mem_append.mp hline with hline | hline
          · simp only [mem_cons, not_mem_nil, or_false] at hline
            rcases hline with rfl | rfl <;> trivial
          · obtain ⟨s, -, rfl⟩ := mem_map.mp hline
            trivial
        · exact h line hline
      · obtain rfl := mem_singleton.mp hline
        trivial
  have hstart : ([Line.accept, .clearMismatch] ++ toAssign.map Line.assign).foldl (runLine call)
      ⟨[], none, false, false, false, false⟩
      = ⟨toAssign.reverse, none, false, false, false, false⟩ := by
    rw [foldl_append, foldl_assign]
    simp [runLine]
  obtain ⟨-, hdeclined, hmismatch⟩ := @checks_specialization _ call _ _
    (fun v hv => hready v.1 (hmemValues v hv))
    (fun values hvals v hv => hready v.1 (hmemRanks values hvals v hv))
    ⟨toAssign.reverse, none, false, false, false, false⟩ rfl
  rw [admits, foldl_append, foldl_append, hstart]
  set last := (checkLines frozen spec).foldl (runLine call)
    ⟨toAssign.reverse, none, false, false, false, false⟩
  have hiff : last.mismatch = none ↔ spec.HoldsIn call := by simpa using hmismatch
  rw [← hiff]
  cases hm : last.mismatch with
  | none => simp [runLine, hm, hdeclined]
  | some label => simp [runLine, hm]

/-! ## What a record shows -/

@[simp] theorem valueSet_eq_nil {values : List Value} : valueSet values = [] ↔ values = [] := by
  induction values with
  | nil => simp [valueSet]
  | cons v values ih =>
    rw [valueSet]
    split
    · next h =>
      rw [ih]
      exact iff_of_false (ne_nil_of_mem h.2) (cons_ne_nil v values)
    · simp

/-- A set of values read back has one member where all are that value, and for a NaN where
one was read. -/
theorem valueSet_eq_singleton {values : List Value} {v : Value} :
    valueSet values = [v] ↔
      values ≠ [] ∧ (∀ w ∈ values, w = v) ∧ (v = .nan → values.length = 1) := by
  induction values with
  | nil => simp [valueSet]
  | cons w values ih =>
    rw [valueSet]
    split
    · next h =>
      rw [ih, forall_mem_cons]
      constructor
      · rintro ⟨-, hall, -⟩
        have hw := hall w h.2
        exact ⟨cons_ne_nil w values, ⟨hw, hall⟩, fun hnan => absurd (hw.trans hnan) h.1⟩
      · rintro ⟨-, ⟨hw, hall⟩, -⟩
        exact ⟨ne_nil_of_mem h.2, hall, fun hnan => absurd (hw.trans hnan) h.1⟩
    · next h =>
      rw [cons.injEq, valueSet_eq_nil, forall_mem_cons, length_cons]
      constructor
      · rintro ⟨rfl, rfl⟩
        exact ⟨by simp, ⟨rfl, by simp⟩, fun _ => rfl⟩
      · rintro ⟨-, ⟨rfl, hall⟩, hnan⟩
        refine ⟨rfl, ?_⟩
        by_cases hw : w = .nan
        · exact length_eq_zero_iff.mp (by have := hnan hw; omega)
        · apply eq_nil_iff_forall_not_mem.mpr
          intro x hx
          exact h ⟨hw, hall x hx ▸ hx⟩

/-- An invariant is a name all of whose lines hold one value. -/
theorem mem_recordedInvariants {lines : List (Key × Value)} {key : Key} {value : Value} :
    (key, value) ∈ recordedInvariants lines ↔
      key ∈ lines.map Prod.fst ∧ (∀ line ∈ lines, line.1 = key → line.2 = value) ∧
        (value = .nan → (lines.filter fun line => line.1 = key).length = 1) := by
  have hone : (key, value) ∈ recordedInvariants lines ↔ key ∈ lines.map Prod.fst ∧
      valueSet ((lines.filter fun line => line.1 = key).map Prod.snd) = [value] := by
    rw [recordedInvariants, mem_filterMap]
    constructor
    · rintro ⟨⟨k, vs⟩, hmem, hsome⟩
      obtain ⟨rfl, rfl⟩ := soleValue_eq_some.mp hsome
      obtain ⟨k', hk', heq⟩ := mem_map.mp hmem
      obtain ⟨rfl, hvs⟩ := Prod.mk.inj heq
      exact ⟨mem_dedup.mp hk', hvs⟩
    · rintro ⟨hkey, hvalue⟩
      exact ⟨(key, _), mem_map.mpr ⟨key, mem_dedup.mpr hkey, rfl⟩,
        soleValue_eq_some.mpr ⟨rfl, hvalue⟩⟩
  rw [hone, valueSet_eq_singleton]
  refine and_congr_right fun hkey => ?_
  obtain ⟨line, hline, rfl⟩ := mem_map.mp hkey
  have hne : (lines.filter fun l => l.1 = line.1).map Prod.snd ≠ [] := by
    rw [ne_eq, map_eq_nil_iff, filter_eq_nil_iff]
    intro h
    exact h line hline (by simp)
  rw [and_iff_right hne, length_map]
  refine and_congr_left' ?_
  simp only [forall_mem_map, mem_filter, decide_eq_true_eq, and_imp]

/-- Every call records what a guardable name holds. -/
theorem record_of_specializable {s : Name} (hs : frozen.specializable s = true)
    (call : Call frozen) :
    (Key.name s, (frozen.dtype s).recorded (call.value s)) ∈ symbolRecord call := by
  rw [Frozen.specializable, Bool.or_eq_true] at hs
  rw [symbolRecord, mem_append, mem_append]
  left
  rcases hs with hs | hs
  · left
    exact mem_map.mpr ⟨s, frozen.assigned s hs, rfl⟩
  · right
    obtain ⟨d, hd⟩ := Option.isSome_iff_exists.mp hs
    exact mem_map.mpr ⟨(s, d), AssocLists.mem_of_lookup hd, rfl⟩

@[simp] theorem truncate_ofInt (n : Int) : truncate (.ofInt n) = some n := by
  simp [truncate, Value.ofInt]

/-- What a call recorded of a finite value is what it holds. -/
theorem holds_recorded : ∀ (d : Dtype) (x : d.Held), (d.recorded x).isFinite →
    d.holds x (d.recorded x) = true
  | .logical, true, _ => rfl
  | .logical, false, _ => rfl
  | .integer, n, _ => by simp [Dtype.holds, Dtype.recorded]
  | .float, x, h => by
    have hx : x.isFinite = true := h
    simp [Dtype.holds, Dtype.recorded, hx]

/-- Only a real is recorded as a value that is not finite. -/
theorem isFinite_recorded : ∀ (d : Dtype) (x : d.Held), d ≠ .float → (d.recorded x).isFinite
  | .logical, _, _ => rfl
  | .integer, _, _ => rfl
  | .float, _, h => absurd rfl h

/-- Every call holds the finite invariants of a record it is part of. -/
theorem holds_of_mem_guardableValues {calls : List (Call frozen)} {call : Call frozen}
    (hcall : call ∈ calls) (hfinite : v.2.isFinite)
    (hv : v ∈ guardableValues frozen (recordedInvariants (recordFile calls))) : call.holds v := by
  obtain ⟨⟨key, value⟩, hmem, hsome⟩ := mem_filterMap.mp hv
  cases key with
  | element s k => cases hsome
  | name s =>
    by_cases hs : frozen.specializable s = true
    · obtain rfl : (s, value) = v := by simpa [hs] using hsome
      obtain ⟨-, hall, -⟩ := mem_recordedInvariants.mp hmem
      have hline := hall _ (mem_flatMap.mpr ⟨call, hcall, record_of_specializable hs call⟩) rfl
      have hvalue : (frozen.dtype s).recorded (call.value s) = value := hline
      rw [Call.holds, ← hvalue]
      exact holds_recorded _ _ (hvalue ▸ hfinite)
    · simp [hs] at hsome

theorem specializable_of_mem_guardableValues {recorded : List (Key × Value)}
    (hv : v ∈ guardableValues frozen recorded) : frozen.specializable v.1 = true := by
  obtain ⟨⟨key, value⟩, hmem, hsome⟩ := mem_filterMap.mp hv
  cases key with
  | element s k => cases hsome
  | name s =>
    by_cases hs : frozen.specializable s = true
    · obtain rfl : (s, value) = v := by simpa [hs] using hsome
      exact hs
    · simp [hs] at hsome

end SpecializationGuard
