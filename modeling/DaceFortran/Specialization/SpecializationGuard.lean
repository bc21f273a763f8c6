/-
# The alias record of a sizing run

A sizing run appends, for every call of the binding, the aliases of that call to
`<path>.aliases` and ends the call with an empty line.  `recordedAliases` and
`recordedMemberAliases` read the file back.  A call without an alias leaves
nothing but its empty line, which the two read differently.
-/
import Mathlib.Data.Finset.Sort
import Mathlib.Data.Prod.Lex
import Mathlib.Data.String.Basic
import Std.Data.String.ToInt
import Mathlib.Data.Rat.Defs

open List

namespace SpecializationGuard

/-- An alias `(image, element, array)`, ordered as Python orders tuples. -/
abbrev Alias := String ×ₗ Int ×ₗ String

/-- A member alias `(image, element, other image, other element)`. -/
abbrev MemberAlias := String ×ₗ Int ×ₗ String ×ₗ Int

/-! ## Writing the record -/

/-- What a call reports: a line of `dace_spans_aliases`. -/
inductive Report
  | aliasLine (image : String) (element : Int) (array : String)
  | sameLine (image : String) (element : Int) (other : String) (otherElement : Int)

/-- The fields of the line that reports it. -/
def Report.line : Report → List String
  | .aliasLine image element array => ["alias", image, element.repr, array]
  | .sameLine image element other otherElement =>
      ["same", image, element.repr, other, otherElement.repr]

/-- The lines of one call: its reports, then the empty line that ends it. -/
def callLines (call : List Report) : List (List String) :=
  call.map Report.line ++ [[]]

/-- The lines of `<path>.aliases` after a run, each as its fields. -/
def aliasFile (calls : List (List Report)) : List (List String) :=
  calls.flatMap callLines

/-! ## Reading it back -/

/-- Python's `int` of a field; a field that is no number raises. -/
def int (field : String) : Except String Int :=
  match field.toInt? with
  | some n => .ok n
  | none =>
      match field.startsWith "+", (field.drop 1).toNat? with
      | true, some n => .ok n
      | _, _ => .error s!"invalid literal for int() with base 10: '{field}'"

/-- The list `calls` of the readers: `calls[:-1]` and `calls[-1]`. -/
structure Calls (α : Type) where
  earlier : List (Finset α)
  last : Finset α

/-- `calls = [set()]`. -/
def Calls.start {α : Type} : Calls α := ⟨[], ∅⟩

/-- `calls[-1].add(x)`. -/
def Calls.add {α : Type} [DecidableEq α] (calls : Calls α) (x : α) : Calls α :=
  { calls with last := insert x calls.last }

/-- `calls.append(set())`. -/
def Calls.append {α : Type} (calls : Calls α) : Calls α :=
  ⟨calls.earlier ++ [calls.last], ∅⟩

/-- The loop body of `recorded_aliases`. -/
def aliasStep (calls : Calls Alias) : List String → Except String (Calls Alias)
  | [] => .ok (if calls.last.Nonempty then calls.append else calls)
  | ["alias", image, element, array] => do
      let element ← int element
      .ok (calls.add (toLex (image, toLex (element, array))))
  | _ => .ok calls

/-- The loop body of `recorded_member_aliases`. -/
def memberStep (calls : Calls MemberAlias) : List String → Except String (Calls MemberAlias)
  | [] => .ok calls.append
  | ["same", image, element, other, otherElement] => do
      let element ← int element
      let otherElement ← int otherElement
      .ok (calls.add (toLex (image, toLex (element, toLex (other, otherElement)))))
  | _ => .ok calls

/-- What the last line of `recorded_aliases` returns for the calls kept. -/
def sortedIntersection : List (Finset Alias) → List Alias
  | [] => []
  | first :: rest => (rest.foldl (· ∩ ·) first).sort

/-- `recorded_aliases`, of the lines of the file (`none` without the file). -/
def recordedAliases : Option (List (List String)) → Except String (List Alias)
  | none => .ok []
  | some lines => do
      let calls ← lines.foldlM aliasStep Calls.start
      .ok (sortedIntersection
        ((calls.earlier ++ [calls.last]).filter (fun c => c.Nonempty)))

/-- `recorded_member_aliases`, of the lines of the file. -/
def recordedMemberAliases : Option (List (List String)) → Except String (List MemberAlias)
  | none => .ok []
  | some lines => do
      let calls ← lines.foldlM memberStep Calls.start
      -- the empty line that ends the last call opens a set nothing is added to
      let calls := if calls.last.Nonempty then calls.earlier ++ [calls.last] else calls.earlier
      match calls with
      | [] => .ok []
      | first :: rest => if rest.any (· ≠ first) then .ok [] else .ok first.sort

/-! ## What the calls reported -/

/-- The aliases a call reported. -/
def aliasesOf (call : List Report) : Finset Alias :=
  (call.filterMap fun
    | .aliasLine image element array => some (toLex (image, toLex (element, array)))
    | .sameLine .. => none).toFinset

/-- The member aliases a call reported. -/
def memberAliasesOf (call : List Report) : Finset MemberAlias :=
  (call.filterMap fun
    | .aliasLine .. => none
    | .sameLine image element other otherElement =>
        some (toLex (image, toLex (element, toLex (other, otherElement))))).toFinset

/-! ## One call at a time -/

/-- A number written with `i0` reads back as itself. -/
@[simp] theorem int_repr (n : Int) : int n.repr = .ok n := by
  simp [int]

variable (call : List Report)

/-- The lines of a call add what the reader takes from each. -/
theorem foldlM_reports {α : Type} [DecidableEq α]
    {step : Calls α → List String → Except String (Calls α)}
    {taken : Report → Option α} (hstep : ∀ calls report,
      step calls (Report.line report) =
        .ok { calls with last := calls.last ∪ (taken report).toList.toFinset })
    (calls : Calls α) : (call.map Report.line).foldlM step calls
      = .ok { calls with last := calls.last ∪ (call.filterMap taken).toFinset } := by
  induction call generalizing calls with
  | nil => simp [pure, Except.pure]
  | cons report call ih =>
    rw [map_cons, foldlM_cons, hstep]
    show (call.map Report.line).foldlM step _ = _
    rw [ih]
    congr 2
    cases hreport : taken report <;> simp [hreport]

theorem foldlM_aliasStep_reports (calls : Calls Alias) :
    (call.map Report.line).foldlM aliasStep calls
      = .ok { calls with last := calls.last ∪ aliasesOf call } := by
  apply foldlM_reports
  intro calls report
  cases report <;> simp [Report.line, aliasStep, Calls.add, bind, Except.bind]

/-- A call that reported no alias leaves no trace. -/
theorem foldlM_aliasStep_call (earlier : List (Finset Alias)) :
    (callLines call).foldlM aliasStep ⟨earlier, ∅⟩
      = .ok ⟨earlier ++ [aliasesOf call].filter (fun c => c.Nonempty), ∅⟩ := by
  rw [callLines, foldlM_append, foldlM_aliasStep_reports]
  show aliasStep _ [] >>= pure = _
  by_cases hne : (aliasesOf call).Nonempty
  · simp [aliasStep, Calls.append, hne, bind, Except.bind, pure, Except.pure]
  · have hempty : aliasesOf call = ∅ := Finset.not_nonempty_iff_eq_empty.mp hne
    simp [aliasStep, hempty, bind, Except.bind, pure, Except.pure]

variable (calls : List (List Report))

/-- After a run, the sets read are those of the calls that reported an alias. -/
theorem foldlM_aliasStep_run (earlier : List (Finset Alias)) :
    (aliasFile calls).foldlM aliasStep ⟨earlier, ∅⟩
      = .ok ⟨earlier ++ (calls.map aliasesOf).filter (fun c => c.Nonempty), ∅⟩ := by
  induction calls generalizing earlier with
  | nil => simp [aliasFile, pure, Except.pure]
  | cons call calls ih =>
    rw [aliasFile, flatMap_cons, foldlM_append, foldlM_aliasStep_call]
    show (aliasFile calls).foldlM aliasStep _ = _
    rw [ih, map_cons, ← singleton_append (l := List.map _ _), filter_append,
      append_assoc]

theorem foldlM_memberStep_reports (calls : Calls MemberAlias) :
    (call.map Report.line).foldlM memberStep calls
      = .ok { calls with last := calls.last ∪ memberAliasesOf call } := by
  apply foldlM_reports
  intro calls report
  cases report <;> simp [Report.line, memberStep, Calls.add, bind, Except.bind]

/-- After a run, the sets read are those of all the calls. -/
theorem foldlM_memberStep_run (earlier : List (Finset MemberAlias)) :
    (aliasFile calls).foldlM memberStep ⟨earlier, ∅⟩
      = .ok ⟨earlier ++ calls.map memberAliasesOf, ∅⟩ := by
  induction calls generalizing earlier with
  | nil => simp [aliasFile, pure, Except.pure]
  | cons call calls ih =>
    have hcall : (callLines call).foldlM memberStep ⟨earlier, ∅⟩
        = .ok ⟨earlier ++ [memberAliasesOf call], ∅⟩ := by
      rw [callLines, foldlM_append, foldlM_memberStep_reports]
      show memberStep _ [] >>= pure = _
      simp [memberStep, Calls.append, bind, Except.bind, pure, Except.pure]
    rw [aliasFile, flatMap_cons, foldlM_append, hcall]
    show (aliasFile calls).foldlM memberStep _ = _
    rw [ih, map_cons, append_assoc, singleton_append]

/-! ## What the readers return -/

/-- A member of an intersection of sets is in each of them. -/
theorem mem_foldl_inter {α : Type} [DecidableEq α] (rest : List (Finset α)) (first : Finset α)
    (x : α) : x ∈ rest.foldl (· ∩ ·) first ↔ x ∈ first ∧ ∀ c ∈ rest, x ∈ c := by
  induction rest generalizing first with
  | nil => simp
  | cons c rest ih => simp [ih, and_assoc]

/-- **`recorded_aliases` returns the aliases common to the calls that reported one.** -/
theorem recordedAliases_eq :
    ∃ aliases, recordedAliases (some (aliasFile calls)) = .ok aliases ∧
      ∀ a, a ∈ aliases ↔ (∃ call ∈ calls, (aliasesOf call).Nonempty) ∧
        ∀ call ∈ calls, (aliasesOf call).Nonempty → a ∈ aliasesOf call := by
  have hread := foldlM_aliasStep_run calls []
  set reporting := (calls.map aliasesOf).filter (fun c => c.Nonempty) with hreporting
  have hmem : ∀ c, c ∈ reporting ↔ ∃ call ∈ calls, (aliasesOf call).Nonempty ∧
      aliasesOf call = c := by
    intro c
    simp only [hreporting, mem_filter, mem_map, decide_eq_true_eq]
    constructor
    · rintro ⟨⟨call, hcall, rfl⟩, hne⟩
      exact ⟨call, hcall, hne, rfl⟩
    · rintro ⟨call, hcall, hne, rfl⟩
      exact ⟨⟨call, hcall, rfl⟩, hne⟩
  have hkeep : (reporting ++ [∅]).filter (fun c : Finset Alias => c.Nonempty) = reporting := by
    rw [filter_append, hreporting, filter_filter]
    simp
  have hvalue : recordedAliases (some (aliasFile calls)) = .ok (sortedIntersection reporting) := by
    simp only [recordedAliases, Calls.start, hread, bind, Except.bind, nil_append]
    rw [hkeep]
  refine ⟨_, hvalue, fun a => ?_⟩
  cases hcases : reporting with
  | nil =>
    have hnone : ¬ ∃ call ∈ calls, (aliasesOf call).Nonempty := by
      rintro ⟨call, hcall, hne⟩
      have : aliasesOf call ∈ reporting := (hmem _).mpr ⟨call, hcall, hne, rfl⟩
      rw [hcases] at this
      cases this
    simp [sortedIntersection, hnone]
  | cons first rest =>
    rw [sortedIntersection, Finset.mem_sort, mem_foldl_inter]
    have hall : (a ∈ first ∧ ∀ c ∈ rest, a ∈ c) ↔ ∀ c ∈ reporting, a ∈ c := by
      rw [hcases, forall_mem_cons]
    rw [hall]
    obtain ⟨call, hcall, hne, -⟩ := (hmem first).mp (by rw [hcases]; exact mem_cons_self)
    constructor
    · intro h
      exact ⟨⟨call, hcall, hne⟩, fun c hc hcne => h _ ((hmem _).mpr ⟨c, hc, hcne, rfl⟩)⟩
    · rintro ⟨-, h⟩ c hc
      obtain ⟨call', hcall', hne', rfl⟩ := (hmem c).mp hc
      exact h call' hcall' hne'

/-- **`recorded_member_aliases` returns the member aliases of the calls, when all
reported the same.** -/
theorem recordedMemberAliases_eq :
    ∃ aliases, recordedMemberAliases (some (aliasFile calls)) = .ok aliases ∧
      ∀ m, m ∈ aliases ↔ calls ≠ [] ∧ (∀ call ∈ calls, m ∈ memberAliasesOf call) ∧
        ∀ call ∈ calls, ∀ other ∈ calls, memberAliasesOf call = memberAliasesOf other := by
  have hvalue : recordedMemberAliases (some (aliasFile calls))
      = match calls.map memberAliasesOf with
        | [] => .ok []
        | first :: rest => if rest.any (· ≠ first) then .ok [] else .ok first.sort := by
    simp [recordedMemberAliases, Calls.start, foldlM_memberStep_run calls [], bind, Except.bind]
  rw [hvalue]
  cases calls with
  | nil => exact ⟨[], rfl, by simp⟩
  | cons first rest =>
    rw [map_cons]
    by_cases hdiffer : (rest.map memberAliasesOf).any (· ≠ memberAliasesOf first) = true
    · refine ⟨[], by simp only [hdiffer, if_true], fun m => ?_⟩
      obtain ⟨_, hc, hne⟩ := any_eq_true.mp hdiffer
      obtain ⟨other, hother, rfl⟩ := mem_map.mp hc
      constructor
      · intro h
        cases h
      · rintro ⟨-, -, hsame⟩
        exact absurd (hsame other (mem_cons_of_mem _ hother) first mem_cons_self)
          (by simpa using hne)
    · have hsame : ∀ call ∈ first :: rest, memberAliasesOf call = memberAliasesOf first := by
        intro call hcall
        rcases mem_cons.mp hcall with rfl | hcall
        · rfl
        · by_contra hne
          apply hdiffer
          exact any_eq_true.mpr ⟨_, mem_map_of_mem hcall, by simpa using hne⟩
      refine ⟨_, by simp only [hdiffer]; rfl, fun m => ?_⟩
      rw [Finset.mem_sort]
      constructor
      · intro hm
        refine ⟨by simp, fun call hcall => by rw [hsame call hcall]; exact hm, ?_⟩
        intro call hcall other hother
        rw [hsame call hcall, hsame other hother]
      · rintro ⟨-, hall, -⟩
        exact hall first mem_cons_self

end SpecializationGuard

/-
# Recorded values and the guard built from them

A sizing run records, for every call, the integer symbols and scalar inputs it
passes and the elements of its small integer module arrays.  What stayed the
same is baked into the specialised SDFG, what differs between the ranks is kept
with the combinations the ranks hold, and the guard compares a later call with
both before it does any work.
-/

namespace SpecializationGuard

abbrev Name := String

/-! ## The calls of a binding -/

/-- `Value`: what a record line holds; an integer is a finite one. -/
inductive Value
  | finite (q : Rat)
  | infinite (negative : Bool)
  | nan
  deriving DecidableEq

/-- `math.isfinite` -/
def Value.isFinite : Value → Bool
  | .finite _ => true
  | _ => false

/-- An integer as it is recorded. -/
def Value.ofInt (n : Int) : Value := .finite n

/-- The dtypes of a scalar the guard tells apart. -/
inductive Dtype
  | logical
  | integer
  | float
  deriving DecidableEq

/-- What a Fortran expression of a dtype holds. -/
abbrev Dtype.Held : Dtype → Type
  | .logical => Bool
  | .integer => Int
  | .float => Value

/-- What the builders read of the frozen signature of the general SDFG: the integer
symbols the binding passes (with whether the wrapper computes each from its inputs
alone, and whether that takes an assignment), the scalar inputs with their dtypes and
the small integer module arrays. -/
structure Frozen where
  symbols : List Name
  assigns : Name → Option Bool
  scalars : List (Name × Dtype)
  sources : List Name
  /-- Only symbols are assigned. -/
  assigned : ∀ s, (assigns s).isSome → s ∈ symbols
  /-- A scalar has one argument. -/
  scalars_distinct : (scalars.map Prod.fst).Nodup
  /-- A module array has one descriptor. -/
  distinct : sources.Nodup
  /-- A symbol of the SDFG is no argument of it. -/
  apart : ∀ s ∈ symbols, scalars.lookup s = none

variable (frozen : Frozen)

/-- `scalars.get(s, (s, "int64"))`: the dtype of the expression of `s`. -/
def Frozen.dtype (s : Name) : Dtype := (frozen.scalars.lookup s).getD .integer

/-- A call of the binding: what the expressions of its symbols and scalars hold, the
elements of its module arrays, `none` for one that is not allocated, and the aliases of
its storage. -/
structure Call where
  value : (s : Name) → (frozen.dtype s).Held
  array : Name → Option (List Int)
  reports : List Report

/-! ## Recording the values -/

/-- The most elements of a module array that are recorded. -/
def smallArray : Nat := 16

/-- The name of a record line: `<name>` or `<name>[<k>]`. -/
inductive Key
  | name (s : Name)
  | element (s : Name) (k : Nat)
  deriving DecidableEq

/-- The value `_record_write` writes: a logical as 0 or 1. -/
def Dtype.recorded : (d : Dtype) → d.Held → Value
  | .logical, b => .ofInt (bif b then 1 else 0)
  | .integer, n => .ofInt n
  | .float, x => x

variable {frozen}

/-- The lines of an array: its elements, when it is allocated and small. -/
def elementLines (call : Call frozen) (s : Name) : List (Key × Value) :=
  match call.array s with
  | some elements =>
      if elements.length ≤ smallArray then
        elements.mapIdx fun k e => (Key.element s k, Value.ofInt e)
      else []
  | none => []

/-- `render_symbol_record`: the lines one call appends. -/
def symbolRecord (call : Call frozen) : List (Key × Value) :=
  frozen.symbols.map (fun s => (.name s, (frozen.dtype s).recorded (call.value s))) ++
  frozen.scalars.map (fun s => (.name s.1, (frozen.dtype s.1).recorded (call.value s.1))) ++
  frozen.sources.flatMap (elementLines call)

/-- The record of some calls. -/
def recordFile (calls : List (Call frozen)) : List (Key × Value) := calls.flatMap symbolRecord

/-! ## Reading the values back -/

/-- The Python set of some values read back: each NaN is an object of its own, equal to
no other. -/
def valueSet : List Value → List Value
  | [] => []
  | v :: values => if v ≠ .nan ∧ v ∈ values then valueSet values else v :: valueSet values

/-- `_recorded_values`: each name with the set of its values. -/
def recordedValues (lines : List (Key × Value)) : List (Key × List Value) :=
  (lines.map Prod.fst).dedup.map fun key =>
    (key, valueSet ((lines.filter (fun line => line.1 = key)).map Prod.snd))

/-- A name with one value, and the value. -/
def soleValue : Key × List Value → Option (Key × Value)
  | (key, [value]) => some (key, value)
  | _ => none

theorem soleValue_eq_some {key key' : Key} {values : List Value} {value : Value} :
    soleValue (key, values) = some (key', value) ↔ key = key' ∧ values = [value] := by
  match values with
  | [] => simp [soleValue]
  | [_] => simp [soleValue]
  | _ :: _ :: _ => simp [soleValue]

/-- `recorded_invariants`: the names with one value. -/
def recordedInvariants (lines : List (Key × Value)) : List (Key × Value) :=
  (recordedValues lines).filterMap soleValue

/-- Python's `int` of a number, towards zero; it raises for one that is not finite. -/
def truncate : Value → Option Int
  | .finite q => some (q.num.tdiv q.den)
  | _ => none

/-- `found[name]` of `recorded_arrays`: the elements recorded of one array, which are
integers. -/
def foundElements (recorded : List (Key × Value)) (s : Name) : List (Nat × Int) :=
  recorded.filterMap fun
    | (.element s' k, value) => if s' = s then (truncate value).map fun e => (k, e) else none
    | (.name _, _) => none

/-- `recorded_arrays`: the arrays whose recorded elements are an initial range. -/
def recordedArrays (frozen : Frozen) (recorded : List (Key × Value)) : List (Name × List Int) :=
  frozen.sources.filterMap fun source =>
    let found := foundElements recorded source
    if found ≠ [] ∧ (found.map Prod.fst).toFinset = Finset.range found.length then
      some (source, (List.range found.length).map fun k => (found.lookup k).getD 0)
    else none

/-- The names `recorded_value_sets` gives sets: in the record of every rank, each
constant there, and not the same on all. -/
def recordedValueSets (files : List (List (Key × Value))) : List Key :=
  if files.length < 2 then []
  else
    let perRank := files.map recordedInvariants
    match perRank with
    | [] => []
    | first :: rest =>
        (first.map Prod.fst).filter fun key =>
          rest.all (fun r => (r.lookup key).isSome) &&
            decide (1 < (valueSet (perRank.filterMap (fun r => r.lookup key))).length)

/-- `recorded_rank_values`: the combination of each rank. -/
def recordedRankValues (files : List (List (Key × Value))) : List (List (Key × Value)) :=
  let sets := recordedValueSets files
  if sets = [] then []
  else files.map fun file =>
    sets.filterMap fun key => ((recordedInvariants file).lookup key).map fun v => (key, v)

/-! ## The specialisation -/

/-- `Specialization`: the baked values and arrays and the combinations of the ranks. -/
structure Specialization where
  values : List (Name × Value)
  arrays : List (Name × List Int)
  perRank : List (List (Name × Value))

/-- `specializable`: the names the guard can check. -/
def Frozen.specializable (frozen : Frozen) (s : Name) : Bool :=
  (frozen.assigns s).isSome || (frozen.scalars.lookup s).isSome

/-- The values of `recorded` the guard can check, by name. -/
def guardableValues (frozen : Frozen) (recorded : List (Key × Value)) : List (Name × Value) :=
  recorded.filterMap fun
    | (.name s, value) => if frozen.specializable s then some (s, value) else none
    | (.element .., _) => none

/-- The specialisation built from the record of a run and from those of its ranks. -/
def recordedSpecialization (frozen : Frozen) (record : List (Key × Value))
    (files : List (List (Key × Value))) : Specialization :=
  { values := guardableValues frozen (recordedInvariants record)
    arrays := recordedArrays frozen (recordedInvariants record)
    perRank :=
      -- without a guardable name that differs, no combination is kept
      if (recordedValueSets files).any (fun | .name s => frozen.specializable s | _ => false) then
        (recordedRankValues files).map (guardableValues frozen)
      else [] }

/-! ## The guard -/

/-- The expression of a value: a local the guard assigns, or one of the caller's. -/
inductive Source
  | assigned (s : Name)
  | caller (s : Name)

/-- The lines of the guard, one constructor for each kind. -/
inductive Line
  /-- `if (present(dace_declined)) dace_declined = .false.` -/
  | accept
  /-- `dace_mismatch = ''` -/
  | clearMismatch
  /-- The lines that compute a symbol. -/
  | assign (s : Name)
  /-- `if (<expr> differs from value) dace_mismatch = 's'` -/
  | mismatchIf (expr : Source) (value : Value) (label : String)
  /-- `dace_holds = .false.` -/
  | clearHolds
  /-- `if (size(expr) == n) dace_holds = all(expr == [..])`, inside a test that the
  array is there where it may not be. -/
  | holdsIfAll (s : Name) (elements : List Int)
  /-- `if (.not. dace_holds) dace_mismatch = 's'` -/
  | mismatchUnlessHolds (label : String)
  /-- `dace_some_rank = .false.` -/
  | clearSomeRank
  /-- `dace_this_rank = .true.` -/
  | setThisRank
  /-- `if (<expr> differs from value) dace_this_rank = .false.` -/
  | notThisRankIf (expr : Source) (value : Value)
  /-- `if (dace_this_rank) dace_some_rank = .true.` -/
  | someRankIfThis
  /-- `if (.not. dace_some_rank) dace_mismatch = '...'` -/
  | mismatchUnlessSomeRank (label : String)
  /-- Decline the call, or stop, when `dace_mismatch /= ''`. -/
  | declineIfMismatch

/-- `expr` of a checked name: the local where the guard assigns one. -/
def Frozen.source (frozen : Frozen) (s : Name) : Source :=
  if frozen.scalars.lookup s = none ∧ frozen.assigns s = some true then .assigned s else .caller s

def rankLabel : String := "the values of every recorded rank"

/-- The lines that check one baked array. -/
def arrayLines (array : Name × List Int) : List Line :=
  [.clearHolds, .holdsIfAll array.1 array.2, .mismatchUnlessHolds array.1]

/-- The lines that check the combination of one rank. -/
def rankLines (frozen : Frozen) (values : List (Name × Value)) : List Line :=
  .setThisRank :: values.map (fun v => .notThisRankIf (frozen.source v.1) v.2) ++ [.someRankIfThis]

/-- The lines that compare the call with the specialisation. -/
def checkLines (frozen : Frozen) (spec : Specialization) : List Line :=
  spec.values.map (fun v => .mismatchIf (frozen.source v.1) v.2 v.1) ++
  spec.arrays.flatMap arrayLines ++
  (if spec.perRank = [] then []
    -- the call's values must be one recorded rank's combination, all of them together
    else .clearSomeRank :: spec.perRank.flatMap (rankLines frozen) ++
      [.mismatchUnlessSomeRank rankLabel])

/-- `sorted` of a set of names. -/
def sorted (names : List Name) : List Name := names.dedup.mergeSort fun a b => decide (a ≤ b)

@[simp] theorem mem_sorted {names : List Name} {s : Name} : s ∈ sorted names ↔ s ∈ names := by
  rw [sorted, mem_mergeSort, mem_dedup]

@[simp] theorem sorted_eq_nil {names : List Name} : sorted names = [] ↔ names = [] := by
  simp only [eq_nil_iff_forall_not_mem, mem_sorted]

/-- What `int` raises for a value that is not finite. -/
def Value.intError : Value → String
  | .nan => "cannot convert float NaN to integer"
  | _ => "cannot convert float infinity to integer"

/-- The values `_differs` can not write for the dtype of their names. -/
def unwritable (frozen : Frozen) (values : List (Name × Value)) : List (Name × Value) :=
  values.filter fun v => frozen.dtype v.1 = .integer ∧ !v.2.isFinite

/-- `build_specialization_guard`. -/
def buildSpecializationGuard (frozen : Frozen) (spec : Specialization) :
    Except String (List Line) :=
  let rankNames := sorted (spec.perRank.flatMap (·.map Prod.fst))
  let names := spec.values.map Prod.fst ++ rankNames
  let unguardable := sorted (names.filter fun s => !frozen.specializable s)
  let nonFinite := sorted ((spec.values.filter fun v => !v.2.isFinite).map Prod.fst)
  if unguardable ≠ [] then
    .error ("cannot guard the specialisation of " ++ ", ".intercalate unguardable ++
      ": the wrapper computes them only after it has allocated or copied its buffers " ++
      "(see specializable)")
  else if nonFinite ≠ [] then
    .error ("cannot specialise to a non-finite value: " ++ ", ".intercalate nonFinite)
  else
    match unwritable frozen spec.perRank.flatten with
    | v :: _ => .error v.2.intError
    | [] =>
      if spec.values = [] ∧ spec.arrays = [] ∧ spec.perRank = [] then .ok [.accept]
      else
        .ok <|
          [.accept, .clearMismatch] ++
          (names.filter fun s =>
            frozen.scalars.lookup s = none ∧ frozen.assigns s = some true).map .assign ++
          checkLines frozen spec ++ [.declineIfMismatch]

/-- Whether a line is Fortran: `_differs` writes a real that is not finite as `inf_c_double`
or `nan_c_double`, which no declaration gives. -/
def Line.IsFortran (frozen : Frozen) : Line → Prop
  | .mismatchIf (.assigned s) value _ => frozen.dtype s = .float → value.isFinite
  | .mismatchIf (.caller s) value _ => frozen.dtype s = .float → value.isFinite
  | .notThisRankIf (.assigned s) value => frozen.dtype s = .float → value.isFinite
  | .notThisRankIf (.caller s) value => frozen.dtype s = .float → value.isFinite
  | _ => True

/-! ## Running the guard -/

/-- `_differs`, negated: whether an expression of a dtype holds a baked value. -/
def Dtype.holds : (d : Dtype) → d.Held → Value → Bool
  | .logical, b, value => b == decide (value ≠ .finite 0)
  | .integer, n, value => truncate value == some n
  | .float, x, value => x.isFinite && x == value

/-- The locals of the guard. -/
structure Locals where
  assigned : List Name
  mismatch : Option String
  holds : Bool
  thisRank : Bool
  someRank : Bool
  declined : Bool

/-- Whether an expression holds a value; a local that is not assigned holds none. -/
def exprHolds (call : Call frozen) (l : Locals) : Source → Value → Bool
  | .caller s, value => (frozen.dtype s).holds (call.value s) value
  | .assigned s, value => decide (s ∈ l.assigned) && (frozen.dtype s).holds (call.value s) value

/-- One line. -/
def runLine (call : Call frozen) (l : Locals) : Line → Locals
  | .accept => { l with declined := false }
  | .clearMismatch => { l with mismatch := none }
  | .assign s => { l with assigned := s :: l.assigned }
  | .mismatchIf expr value label =>
      if exprHolds call l expr value then l else { l with mismatch := some label }
  | .clearHolds => { l with holds := false }
  | .holdsIfAll s elements =>
      match call.array s with
      | some held => if held.length =
          elements.length then { l with holds := held == elements } else l
      | none => l
  | .mismatchUnlessHolds label => if l.holds then l else { l with mismatch := some label }
  | .clearSomeRank => { l with someRank := false }
  | .setThisRank => { l with thisRank := true }
  | .notThisRankIf expr value =>
      if exprHolds call l expr value then l else { l with thisRank := false }
  | .someRankIfThis => if l.thisRank then { l with someRank := true } else l
  | .mismatchUnlessSomeRank label => if l.someRank then l else { l with mismatch := some label }
  | .declineIfMismatch => if l.mismatch.isSome then { l with declined := true } else l

/-- The guard admits a call unless it leaves it declined. -/
def admits (guard : List Line) (call : Call frozen) : Bool :=
  !(guard.foldl (runLine call) ⟨[], none, false, false, false, false⟩).declined

/-! ## What the guard is for -/

/-- A call holds a baked value. -/
def Call.holds (call : Call frozen) (baked : Name × Value) : Prop :=
  (frozen.dtype baked.1).holds (call.value baked.1) baked.2 = true

/-- A call holds what was specialised to: all values and arrays, and the combination
of one recorded rank where there are several. -/
structure Specialization.HoldsIn (spec : Specialization) (call : Call frozen) : Prop where
  values : ∀ v ∈ spec.values, call.holds v
  arrays : ∀ a ∈ spec.arrays, call.array a.1 = some a.2
  perRank : spec.perRank = [] ∨ ∃ values ∈ spec.perRank, ∀ v ∈ values, call.holds v

end SpecializationGuard
