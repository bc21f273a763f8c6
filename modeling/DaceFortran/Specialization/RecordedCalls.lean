/-
# Every recorded call

`recorded_aliases` is to return what every recorded call reported, and the guard
is to admit every recorded call.  A call without an alias, and a call without an
array the others recorded, leave no trace, and a real that is not finite can not be
compared with; this file says exactly when that does not matter.
-/
import DaceFortran.Specialization.GuardAdmits

open List

namespace SpecializationGuard

variable {frozen : Frozen}

/-! ## The elements of small arrays -/

/-- The element of an array a call records, when it records one. -/
def recordedElement (call : Call frozen) (s : Name) (k : Nat) : Option Int :=
  match call.array s with
  | some elements => if elements.length ≤ smallArray then elements[k]? else none
  | none => none

variable {call : Call frozen} {s : Name} {calls : List (Call frozen)}

theorem mem_elementLines {line : Key × Value} :
    line ∈ elementLines call s ↔
      ∃ k e, recordedElement call s k = some e ∧ line = (.element s k, .ofInt e) := by
  rw [elementLines]
  cases harray : call.array s with
  | none => simp [recordedElement, harray]
  | some elements =>
    by_cases hsmall : elements.length ≤ smallArray
    · simp only [hsmall, if_true, mem_mapIdx, recordedElement, harray,
        List.getElem?_eq_some_iff]
      constructor
      · rintro ⟨k, hk, rfl⟩
        exact ⟨k, elements[k], ⟨hk, rfl⟩, rfl⟩
      · rintro ⟨k, e, ⟨hk, rfl⟩, rfl⟩
        exact ⟨k, hk, rfl⟩
    · simp [recordedElement, harray, hsmall]

variable {k : Nat} {value : Value} {recorded : List (Key × Value)}

/-- The element lines of a call are those of the elements it records. -/
theorem element_mem_symbolRecord :
    (Key.element s k, value) ∈ symbolRecord call ↔
      s ∈ frozen.sources ∧ ∃ e, recordedElement call s k = some e ∧ value = .ofInt e := by
  simp only [symbolRecord, mem_append, mem_map, Prod.mk.injEq, reduceCtorEq, false_and,
    and_false, exists_false, false_or, mem_flatMap, mem_elementLines, Key.element.injEq]
  constructor
  · rintro ⟨s', hs', k', e, he, ⟨rfl, rfl⟩, rfl⟩
    exact ⟨hs', e, he, rfl⟩
  · rintro ⟨hs, e, he, rfl⟩
    exact ⟨s, hs, k, e, he, ⟨rfl, rfl⟩, rfl⟩

/-- The calls that recorded element `k` of an array, one at least, hold one value there. -/
def Steady (calls : List (Call frozen)) (s : Name) (k : Nat) : Prop :=
  ∃ e, (∃ call ∈ calls, recordedElement call s k = some e) ∧
    ∀ call ∈ calls, ∀ e', recordedElement call s k = some e' → e' = e

theorem element_mem_invariants
    (hs : s ∈ frozen.sources) :
    (Key.element s k, value) ∈ recordedInvariants (recordFile calls) ↔
      ∃ e : Int, value = .ofInt e ∧ (∃ call ∈ calls, recordedElement call s k = some e) ∧
        ∀ call ∈ calls, ∀ e', recordedElement call s k = some e' → e' = e := by
  have hline : ∀ v, (Key.element s k, v) ∈ recordFile calls ↔
      ∃ call ∈ calls, ∃ e : Int, recordedElement call s k = some e ∧ v = .ofInt e := by
    intro v
    simp [recordFile, mem_flatMap, element_mem_symbolRecord, hs]
  rw [mem_recordedInvariants]
  constructor
  · rintro ⟨hkey, hall, -⟩
    obtain ⟨⟨key, v⟩, hv, rfl⟩ := mem_map.mp hkey
    obtain ⟨call, hcall, e, he, rfl⟩ := (hline v).mp hv
    have hvalue : Value.ofInt e = value := hall _ hv rfl
    refine ⟨e, hvalue.symm, ⟨call, hcall, he⟩, fun call' hcall' e' he' => ?_⟩
    have hother : Value.ofInt e' = value := hall _ ((hline _).mpr ⟨call', hcall', e', he', rfl⟩) rfl
    simpa [Value.ofInt] using hother.trans hvalue.symm
  · rintro ⟨e, rfl, ⟨call, hcall, he⟩, hall⟩
    have hmem := (hline _).mpr ⟨call, hcall, e, he, rfl⟩
    refine ⟨mem_map.mpr ⟨_, hmem, rfl⟩, ?_, fun hnan => by cases hnan⟩
    rintro ⟨key, v⟩ hv rfl
    obtain ⟨call', hcall', e', he', rfl⟩ := (hline v).mp hv
    rw [hall call' hcall' e' he']

/-- Wherever the steady elements of an array are its first `n`, every call held
exactly `n` elements of it. -/
def ArraysWhole (calls : List (Call frozen)) : Prop :=
  ∀ s ∈ frozen.sources, ∀ n, 0 < n → (∀ k, Steady calls s k ↔ k < n) →
    ∀ call ∈ calls, ∃ elements, call.array s = some elements ∧ elements.length = n

/-- The names of the invariants are distinct. -/
theorem nodup_recordedInvariants (lines : List (Key × Value)) :
    ((recordedInvariants lines).map Prod.fst).Nodup := by
  have hsub : ((recordedInvariants lines).map Prod.fst).Sublist
      ((recordedValues lines).map Prod.fst) := by
    rw [recordedInvariants, map_filterMap]
    have hfst : ∀ x : Key × List Value, (soleValue x).map Prod.fst =
        if x.2.length = 1 then some x.1 else none := by
      rintro ⟨key, _ | ⟨v, _ | ⟨w, values⟩⟩⟩
      · rfl
      · rfl
      · simp [soleValue]
    rw [funext hfst]
    induction recordedValues lines with
    | nil => exact List.Sublist.slnil
    | cons x xs ih =>
      rw [filterMap_cons]
      by_cases hx : x.2.length = 1
      · simpa [hx] using ih
      · simpa [hx] using ih.cons x.1
  refine hsub.nodup ?_
  rw [recordedValues, map_map]
  exact (nodup_dedup _).map_on (by simp)

theorem mem_foundElements {e : Int} :
    (k, e) ∈ foundElements recorded s ↔
      ∃ value, (Key.element s k, value) ∈ recorded ∧ truncate value = some e := by
  rw [foundElements, mem_filterMap]
  constructor
  · rintro ⟨⟨key, value⟩, hmem, hsome⟩
    cases key with
    | name s' => cases hsome
    | element s' k' =>
      by_cases hs : s' = s
      · obtain ⟨e', he, hpair⟩ :=
          Option.map_eq_some_iff.mp (by simpa only [hs, if_true] using hsome)
        obtain ⟨rfl, rfl⟩ := Prod.mk.inj hpair
        exact ⟨value, hs ▸ hmem, he⟩
      · simp [hs] at hsome
  · rintro ⟨value, hmem, he⟩
    exact ⟨_, hmem, by simp [he]⟩

/-- The elements found of an array have distinct indices. -/
theorem nodup_foundElements (s : Name)
    (h : (recorded.map Prod.fst).Nodup) : ((foundElements recorded s).map Prod.fst).Nodup := by
  induction recorded with
  | nil => exact nodup_nil
  | cons line recorded ih =>
    obtain ⟨key, value⟩ := line
    rw [map_cons, nodup_cons] at h
    cases key with
    | name s' => exact ih h.2
    | element s' k =>
      by_cases hs : s' = s
      · cases he : truncate value with
        | none =>
          have hskip : foundElements ((Key.element s' k, value) :: recorded) s
              = foundElements recorded s := by
            simp [foundElements, hs, he]
          rw [hskip]
          exact ih h.2
        | some e =>
        have hcons : foundElements ((Key.element s' k, value) :: recorded) s
            = (k, e) :: foundElements recorded s := by
          simp [foundElements, hs, he]
        rw [hcons, map_cons, nodup_cons]
        refine ⟨fun hk => h.1 ?_, ih h.2⟩
        obtain ⟨⟨k', e⟩, hmem, rfl⟩ := mem_map.mp hk
        obtain ⟨value', hvalue', -⟩ := mem_foundElements.mp hmem
        exact mem_map.mpr ⟨_, hvalue', by rw [hs]⟩
      · have hcons : foundElements ((Key.element s' k, value) :: recorded) s
            = foundElements recorded s := by
          simp [foundElements, hs]
        rw [hcons]
        exact ih h.2

/-- The elements found of an array are its steady elements. -/
theorem mem_foundElements_iff (hs : s ∈ frozen.sources)
    {e : Int} :
    (k, e) ∈ foundElements (recordedInvariants (recordFile calls)) s ↔
      (∃ call ∈ calls, recordedElement call s k = some e) ∧
        ∀ call ∈ calls, ∀ e', recordedElement call s k = some e' → e' = e := by
  rw [mem_foundElements]
  constructor
  · rintro ⟨value, hmem, htruncate⟩
    obtain ⟨e', rfl, he⟩ := (element_mem_invariants hs).mp hmem
    rw [truncate_ofInt, Option.some.injEq] at htruncate
    rwa [htruncate] at he
  · intro he
    exact ⟨.ofInt e, (element_mem_invariants hs).mpr ⟨e, rfl, he⟩, truncate_ofInt e⟩

/-- The arrays baked in: those whose steady elements are their first `n`. -/
theorem mem_recordedArrays {elements : List Int} :
    (s, elements) ∈ recordedArrays frozen (recordedInvariants (recordFile calls)) ↔
      s ∈ frozen.sources ∧ 0 < elements.length ∧
        (∀ k, Steady calls s k ↔ k < elements.length) ∧
        ∀ k (hk : k < elements.length), ∀ call ∈ calls, ∀ e,
          recordedElement call s k = some e → e = elements[k] := by
  set found := foundElements (recordedInvariants (recordFile calls)) s with hfound
  have hnodup : (found.map Prod.fst).Nodup :=
    nodup_foundElements s (nodup_recordedInvariants _)
  have hmem : (s, elements) ∈ recordedArrays frozen (recordedInvariants (recordFile calls)) ↔
      s ∈ frozen.sources ∧ found ≠ [] ∧
        (found.map Prod.fst).toFinset = Finset.range found.length ∧
        elements = (List.range found.length).map fun k => (found.lookup k).getD 0 := by
    rw [recordedArrays, mem_filterMap]
    constructor
    · rintro ⟨s', hs', hsome⟩
      dsimp only at hsome
      split at hsome
      · next h =>
        obtain ⟨rfl, rfl⟩ := Prod.mk.inj (Option.some.inj hsome)
        exact ⟨hs', h.1, h.2, rfl⟩
      · cases hsome
    · rintro ⟨hs, hne, hrange, rfl⟩
      exact ⟨s, hs, by simp only [← hfound]; rw [if_pos ⟨hne, hrange⟩]⟩
  rw [hmem]
  refine and_congr_right fun hs => ?_
  -- an element is found where all the calls that recorded it agree
  have hkeys : ∀ k, k ∈ found.map Prod.fst ↔ Steady calls s k := by
    intro k
    constructor
    · intro hk
      obtain ⟨⟨k', e⟩, he, rfl⟩ := mem_map.mp hk
      exact ⟨e, (mem_foundElements_iff hs).mp he⟩
    · rintro ⟨e, he⟩
      exact mem_map.mpr ⟨(k, e), (mem_foundElements_iff hs).mpr he, rfl⟩
  constructor
  · rintro ⟨hne, hrange, rfl⟩
    have hsteady : ∀ k, Steady calls s k ↔ k < found.length := by
      intro k
      rw [← hkeys, ← mem_toFinset, hrange, Finset.mem_range]
    refine ⟨by simpa using length_pos_iff.mpr hne, by simpa using hsteady, ?_⟩
    intro k hk call hcall e he
    obtain ⟨e₀, he₀⟩ := (hsteady k).mpr (by simpa using hk)
    have hlookup := AssocLists.lookup_of_mem hnodup ((mem_foundElements_iff hs).mpr he₀)
    simp [hlookup, he₀.2 call hcall e he]
  · rintro ⟨hpos, hsteady, hagree⟩
    have hrange : (found.map Prod.fst).toFinset = Finset.range elements.length := by
      ext k
      rw [mem_toFinset, hkeys, hsteady, Finset.mem_range]
    have hlen : found.length = elements.length := by
      have hcard := congrArg Finset.card hrange
      rw [toFinset_card_of_nodup hnodup, Finset.card_range, length_map] at hcard
      exact hcard
    refine ⟨fun h => by rw [h] at hlen; simp at hlen; omega, by rw [hlen]; exact hrange, ?_⟩
    apply ext_getElem (by simp [hlen])
    intro k hk _
    obtain ⟨e₀, he₀⟩ := (hsteady k).mpr hk
    have hlookup := AssocLists.lookup_of_mem hnodup ((mem_foundElements_iff hs).mpr he₀)
    obtain ⟨call, hcall, he⟩ := he₀.1
    simp [hlookup, hagree k hk call hcall e₀ he]

/-- Every call holds the arrays baked in exactly when none was left out of a call. -/
theorem arrays_held_iff :
    (∀ call ∈ calls, ∀ a ∈ recordedArrays frozen (recordedInvariants (recordFile calls)),
      call.array a.1 = some a.2) ↔ ArraysWhole calls := by
  constructor
  · intro hheld s hs n hn hsteady call hcall
    -- the values the steady elements hold are baked in
    choose e he using fun k : Fin n => (hsteady k).mpr k.2
    have hbaked : (s, List.ofFn e) ∈
        recordedArrays frozen (recordedInvariants (recordFile calls)) := by
      refine mem_recordedArrays.mpr ⟨hs, by simpa using hn, by simpa using hsteady, ?_⟩
      intro k hk call' hcall' e' he'
      simpa using (he ⟨k, by simpa using hk⟩).2 call' hcall' e' he'
    exact ⟨_, hheld call hcall _ hbaked, by simp⟩
  · rintro hwhole call hcall ⟨s, elements⟩ hbaked
    obtain ⟨hs, hpos, hsteady, hagree⟩ := mem_recordedArrays.mp hbaked
    obtain ⟨held, hheld, hlen⟩ := hwhole s hs _ hpos hsteady call hcall
    -- some call recorded the last element, so the array is small
    have hsmall : elements.length ≤ smallArray := by
      obtain ⟨e, ⟨call', hcall', he⟩, -⟩ := (hsteady (elements.length - 1)).mpr (by omega)
      obtain ⟨held', hheld', hlen'⟩ := hwhole s hs _ hpos hsteady call' hcall'
      by_contra hbig
      rw [recordedElement, hheld'] at he
      simp only [hlen', hbig, if_false] at he
      cases he
    show call.array s = some elements
    rw [hheld]
    congr 1
    apply ext_getElem hlen
    intro k hk hk'
    refine hagree k hk' call hcall _ ?_
    simp [recordedElement, hheld, hlen, hsmall]

/-! ## The combinations of the ranks -/

/-- The combination of a rank is part of what the record of its calls shows. -/
theorem mem_guardableValues_rank (keys : List Key) {v : Name × Value}
    (hv : v ∈ guardableValues frozen (keys.filterMap fun key =>
      ((recordedInvariants (recordFile calls)).lookup key).map fun x => (key, x))) :
    v ∈ guardableValues frozen (recordedInvariants (recordFile calls)) ∧ Key.name v.1 ∈ keys := by
  obtain ⟨⟨key, x⟩, hline, hsome⟩ := mem_filterMap.mp hv
  obtain ⟨key', hkey, hlookup⟩ := mem_filterMap.mp hline
  obtain ⟨x', hx, heq⟩ := Option.map_eq_some_iff.mp hlookup
  obtain ⟨rfl, rfl⟩ := Prod.mk.inj heq
  refine ⟨mem_filterMap.mpr ⟨_, AssocLists.mem_of_lookup hx, hsome⟩, ?_⟩
  cases key' with
  | element s' k' => cases hsome
  | name s' =>
    by_cases hs : frozen.specializable s' = true
    · obtain rfl : (s', x') = v := by simpa [hs] using hsome
      exact hkey
    · simp [hs] at hsome

/-- The ranks of a run that have a record: those that made a call. -/
def ranks (run : List (List (Call frozen))) : List (List (Call frozen)) :=
  run.filter fun calls => !calls.isEmpty

/-- The specialisation recorded of a run of several ranks. -/
def runSpecialization (run : List (List (Call frozen))) : Specialization :=
  recordedSpecialization frozen (recordFile run.flatten) ((ranks run).map recordFile)

variable {run : List (List (Call frozen))}

theorem exists_rank (hcall : call ∈ run.flatten) : ∃ calls ∈ ranks run, call ∈ calls := by
  obtain ⟨calls, hcalls, hcall⟩ := mem_flatten.mp hcall
  refine ⟨calls, mem_filter.mpr ⟨hcalls, ?_⟩, hcall⟩
  cases calls with
  | nil => cases hcall
  | cons _ _ => rfl

theorem mem_flatten_of_rank (hcalls : calls ∈ ranks run) (hcall : call ∈ calls) :
    call ∈ run.flatten :=
  mem_flatten.mpr ⟨calls, (mem_filter.mp hcalls).1, hcall⟩

/-- The combinations kept are those of the ranks, when a name the guard can check differs. -/
theorem mem_perRank {values : List (Name × Value)} :
    values ∈ (runSpecialization run).perRank ↔
      (∃ s, Key.name s ∈ recordedValueSets ((ranks run).map recordFile) ∧
        frozen.specializable s = true) ∧
      ∃ calls ∈ ranks run, values = guardableValues frozen
        ((recordedValueSets ((ranks run).map recordFile)).filterMap fun key =>
          ((recordedInvariants (recordFile calls)).lookup key).map fun x => (key, x)) := by
  simp only [runSpecialization, recordedSpecialization]
  split
  · next hsome =>
    obtain ⟨key, hkey, hs⟩ := any_eq_true.mp hsome
    have hne : recordedValueSets ((ranks run).map recordFile) ≠ [] := ne_nil_of_mem hkey
    rw [recordedRankValues, if_neg hne, map_map, map_map, mem_map]
    constructor
    · rintro ⟨calls, hcalls, rfl⟩
      refine ⟨?_, calls, hcalls, rfl⟩
      cases key with
      | name s => exact ⟨s, hkey, hs⟩
      | element s k => cases hs
    · rintro ⟨-, calls, hcalls, rfl⟩
      exact ⟨calls, hcalls, rfl⟩
  · next hnone =>
    refine iff_of_false (not_mem_nil) ?_
    rintro ⟨⟨s, hs, hguardable⟩, -⟩
    exact hnone (any_eq_true.mpr ⟨_, hs, hguardable⟩)

/-- Every call of a run holds the combination of its rank, when that is finite. -/
theorem perRank_held
    (hfinite : ∀ values ∈ (runSpecialization run).perRank, ∀ v ∈ values, v.2.isFinite)
    (hcall : call ∈ run.flatten) :
    (runSpecialization run).perRank = [] ∨
      ∃ values ∈ (runSpecialization run).perRank, ∀ v ∈ values, call.holds v := by
  by_cases hempty : (runSpecialization run).perRank = []
  · exact .inl hempty
  · obtain ⟨values, hvalues⟩ := exists_mem_of_ne_nil _ hempty
    obtain ⟨calls, hcalls, hcall⟩ := exists_rank hcall
    have hkept := mem_perRank.mpr ⟨(mem_perRank.mp hvalues).1, calls, hcalls, rfl⟩
    exact .inr ⟨_, hkept, fun v hv => holds_of_mem_guardableValues hcall (hfinite _ hkept v hv)
      (mem_guardableValues_rank _ hv).1⟩

/-! ## Reals that are not finite -/

/-- The calls, one at least, hold one value of a name; a NaN is one of a single call only,
since no two are equal. -/
def Sole (calls : List (Call frozen)) (s : Name) (v : Value) : Prop :=
  calls ≠ [] ∧ (∀ call ∈ calls, (frozen.dtype s).recorded (call.value s) = v) ∧
    (v = .nan → calls.length = 1)

/-- No real is recorded as one value that is not finite: over the whole run, or on a rank
where it has one value on each of several. -/
def FiniteRecorded (run : List (List (Call frozen))) : Prop :=
  ∀ s, frozen.scalars.lookup s = some .float →
    (∀ v, Sole run.flatten s v → v.isFinite) ∧
    (2 ≤ (ranks run).length → (∀ calls ∈ ranks run, ∃ v, Sole calls s v) →
      ∀ calls ∈ ranks run, ∀ v, Sole calls s v → v.isFinite)

theorem lookup_of_float (h : frozen.dtype s = .float) : frozen.scalars.lookup s = some .float := by
  rw [Frozen.dtype] at h
  cases hlookup : frozen.scalars.lookup s with
  | none => rw [hlookup] at h; cases h
  | some d => rw [hlookup] at h; exact congrArg some h

theorem filter_of_lookup {scalars : List (Name × Dtype)} {d : Dtype}
    (hdistinct : (scalars.map Prod.fst).Nodup) (h : scalars.lookup s = some d) :
    scalars.filter (fun x => x.1 = s) = [(s, d)] := by
  induction scalars with
  | nil => cases h
  | cons x scalars ih =>
    rw [map_cons, nodup_cons] at hdistinct
    by_cases hx : x.1 = s
    · have hrest : scalars.filter (fun y => y.1 = s) = [] := by
        rw [filter_eq_nil_iff]
        intro y hy hys
        exact hdistinct.1 (mem_map.mpr ⟨y, hy, (of_decide_eq_true hys).trans hx.symm⟩)
      obtain ⟨x₁, x₂⟩ := x
      obtain rfl : x₁ = s := hx
      obtain rfl : x₂ = d := by simpa using h
      simp [hrest]
    · rw [filter_cons_of_neg (by simpa using hx)]
      refine ih hdistinct.2 ?_
      rw [lookup_cons] at h
      simpa [beq_eq_false_iff_ne.mpr (Ne.symm hx)] using h

variable {d : Dtype}

/-- A call writes one line of a scalar. -/
theorem filter_symbolRecord (hs : frozen.scalars.lookup s = some d) (call : Call frozen) :
    (symbolRecord call).filter (fun line => line.1 = .name s)
      = [(.name s, (frozen.dtype s).recorded (call.value s))] := by
  have hsymbols : (frozen.symbols.map fun s' =>
      (Key.name s', (frozen.dtype s').recorded (call.value s'))).filter
        (fun line => line.1 = .name s) = [] := by
    rw [filter_eq_nil_iff]
    intro line hline hname
    obtain ⟨s', hs', rfl⟩ := mem_map.mp hline
    obtain rfl : s' = s := by simpa using hname
    rw [frozen.apart s' hs'] at hs
    cases hs
  have harrays : (frozen.sources.flatMap (elementLines call)).filter
      (fun line => line.1 = .name s) = [] := by
    rw [filter_eq_nil_iff]
    intro line hline hname
    obtain ⟨s', -, hline⟩ := mem_flatMap.mp hline
    obtain ⟨k, e, -, rfl⟩ := mem_elementLines.mp hline
    simp at hname
  have hscalars : (frozen.scalars.map fun x =>
      (Key.name x.1, (frozen.dtype x.1).recorded (call.value x.1))).filter
        (fun line => line.1 = .name s)
      = [(.name s, (frozen.dtype s).recorded (call.value s))] := by
    rw [filter_map]
    have hkeys : ((fun line : Key × Value => decide (line.1 = .name s)) ∘ fun x : Name × Dtype =>
        (Key.name x.1, (frozen.dtype x.1).recorded (call.value x.1))) =
          fun x => decide (x.1 = s) := by
      funext x
      simp
    rw [hkeys, filter_of_lookup frozen.scalars_distinct hs]
    rfl
  rw [symbolRecord, filter_append, filter_append, hsymbols, hscalars, harrays]
  rfl

/-- The record of some calls has one line of a scalar for each. -/
theorem filter_recordFile (hs : frozen.scalars.lookup s = some d) (calls : List (Call frozen)) :
    (recordFile calls).filter (fun line => line.1 = .name s)
      = calls.map fun call => (.name s, (frozen.dtype s).recorded (call.value s)) := by
  induction calls with
  | nil => rfl
  | cons call calls ih =>
    have hcons : recordFile (call :: calls) = symbolRecord call ++ recordFile calls := rfl
    rw [hcons, filter_append, filter_symbolRecord hs, ih]
    rfl

/-- A scalar is an invariant of the calls that hold one value of it. -/
theorem mem_recordedInvariants_iff_sole {v : Value} (hs : frozen.scalars.lookup s = some d) :
    (Key.name s, v) ∈ recordedInvariants (recordFile calls) ↔ Sole calls s v := by
  have hline : ∀ line : Key × Value, line ∈ recordFile calls ∧ line.1 = .name s ↔
      ∃ call ∈ calls, (Key.name s, (frozen.dtype s).recorded (call.value s)) = line := by
    intro line
    rw [← mem_map, ← filter_recordFile hs, mem_filter, decide_eq_true_eq]
  rw [mem_recordedInvariants, filter_recordFile hs, length_map, Sole]
  refine and_congr ?_ (and_congr_left' ?_)
  · constructor
    · intro hkey hnil
      obtain ⟨line, hmem, hname⟩ := mem_map.mp hkey
      obtain ⟨call, hcall, -⟩ := (hline line).mp ⟨hmem, hname⟩
      rw [hnil] at hcall
      cases hcall
    · intro hne
      obtain ⟨call, hcall⟩ := exists_mem_of_ne_nil calls hne
      obtain ⟨hmem, hname⟩ := (hline _).mpr ⟨call, hcall, rfl⟩
      exact mem_map.mpr ⟨_, hmem, hname⟩
  · constructor
    · intro hall call hcall
      obtain ⟨hmem, hname⟩ := (hline _).mpr ⟨call, hcall, rfl⟩
      exact hall _ hmem hname
    · intro hall line hmem hname
      obtain ⟨call, hcall, rfl⟩ := (hline line).mp ⟨hmem, hname⟩
      exact hall call hcall

/-- What the guard can check of a record: an invariant of its name. -/
theorem mem_guardableValues {v : Name × Value} :
    v ∈ guardableValues frozen recorded ↔
      (Key.name v.1, v.2) ∈ recorded ∧ frozen.specializable v.1 = true := by
  rw [guardableValues, mem_filterMap]
  constructor
  · rintro ⟨⟨key, x⟩, hmem, hsome⟩
    cases key with
    | element s' k' => cases hsome
    | name s' =>
      by_cases hs : frozen.specializable s' = true
      · obtain rfl : (s', x) = v := by simpa [hs] using hsome
        exact ⟨hmem, hs⟩
      · simp [hs] at hsome
  · rintro ⟨hmem, hs⟩
    exact ⟨_, hmem, by simp [hs]⟩

/-- What is recorded of a name that is no real is finite. -/
theorem isFinite_of_not_float {v : Name × Value}
    (hv : v ∈ guardableValues frozen (recordedInvariants (recordFile calls)))
    (hd : frozen.dtype v.1 ≠ .float) : v.2.isFinite := by
  obtain ⟨hmem, hs⟩ := mem_guardableValues.mp hv
  obtain ⟨hkey, hall, -⟩ := mem_recordedInvariants.mp hmem
  obtain ⟨line, hline, -⟩ := mem_map.mp hkey
  obtain ⟨call, hcall, -⟩ := mem_flatMap.mp hline
  have hvalue := hall _ (mem_flatMap.mpr ⟨call, hcall, record_of_specializable hs call⟩) rfl
  have hrecorded : (frozen.dtype v.1).recorded (call.value v.1) = v.2 := hvalue
  rw [← hrecorded]
  exact isFinite_recorded _ _ hd

theorem specializable_of_lookup (hs : frozen.scalars.lookup s = some d) :
    frozen.specializable s = true := by
  simp [Frozen.specializable, hs]

/-- A name has a set when it is constant on each of several ranks and differs. -/
theorem mem_recordedValueSets {files : List (List (Key × Value))} {key : Key} :
    key ∈ recordedValueSets files ↔ 2 ≤ files.length ∧
      (∀ file ∈ files, ((recordedInvariants file).lookup key).isSome) ∧
      1 < (valueSet ((files.map recordedInvariants).filterMap fun r => r.lookup key)).length := by
  rw [recordedValueSets]
  by_cases hfew : files.length < 2
  · rw [if_pos hfew]
    exact iff_of_false not_mem_nil fun h => by omega
  · cases files with
    | nil => exact absurd (by simp) hfew
    | cons first rest =>
      have hfirst : key ∈ (recordedInvariants first).map Prod.fst ↔
          ((recordedInvariants first).lookup key).isSome := by
        rw [Option.isSome_iff_ne_none, ne_eq, AssocLists.lookup_eq_none, not_not]
      rw [if_neg hfew, map_cons]
      simp only [mem_filter, Bool.and_eq_true, decide_eq_true_eq, all_map, all_eq_true,
        Function.comp_apply, hfirst, forall_mem_cons]
      constructor
      · rintro ⟨h₁, h₂, h₃⟩
        exact ⟨by omega, ⟨h₁, h₂⟩, h₃⟩
      · rintro ⟨-, ⟨h₁, h₂⟩, h₃⟩
        exact ⟨h₁, h₂, h₃⟩

theorem isSome_lookup_iff (hs : frozen.scalars.lookup s = some d) :
    ((recordedInvariants (recordFile calls)).lookup (.name s)).isSome ↔ ∃ v, Sole calls s v := by
  rw [Option.isSome_iff_exists]
  refine exists_congr fun v => ?_
  rw [← mem_recordedInvariants_iff_sole hs]
  exact ⟨AssocLists.mem_of_lookup, AssocLists.lookup_of_mem (nodup_recordedInvariants _)⟩

/-- The values baked in are finite. -/
theorem values_isFinite (h : FiniteRecorded run) :
    ∀ v ∈ (runSpecialization run).values, v.2.isFinite := by
  intro v hv
  by_cases hd : frozen.dtype v.1 = .float
  · have hs := lookup_of_float hd
    exact (h v.1 hs).1 v.2 ((mem_recordedInvariants_iff_sole hs).mp (mem_guardableValues.mp hv).1)
  · exact isFinite_of_not_float hv hd

/-- The combinations are finite. -/
theorem perRank_isFinite (h : FiniteRecorded run) :
    ∀ values ∈ (runSpecialization run).perRank, ∀ v ∈ values, v.2.isFinite := by
  intro values hvalues v hv
  obtain ⟨-, calls, hcalls, rfl⟩ := mem_perRank.mp hvalues
  obtain ⟨hmem, hkey⟩ := mem_guardableValues_rank _ hv
  by_cases hd : frozen.dtype v.1 = .float
  · have hs := lookup_of_float hd
    obtain ⟨htwo, hall, -⟩ := mem_recordedValueSets.mp hkey
    refine (h v.1 hs).2 (by simpa using htwo) (fun calls' hcalls' => ?_) calls hcalls v.2
      ((mem_recordedInvariants_iff_sole hs).mp (mem_guardableValues.mp hmem).1)
    exact (isSome_lookup_iff hs).mp (hall _ (mem_map_of_mem hcalls'))
  · exact isFinite_of_not_float hmem hd

/-- A rank's value that is not finite is kept in its combination, unless all ranks hold it. -/
theorem finiteRecorded_of_guard (hvalues : ∀ v ∈ (runSpecialization run).values, v.2.isFinite)
    (hranks : (runSpecialization run).RanksFinite frozen) : FiniteRecorded run := by
  intro s hs
  have hd : frozen.dtype s = .float := by rw [Frozen.dtype, hs]; rfl
  have hspec := specializable_of_lookup hs
  have hrun : ∀ v, Sole run.flatten s v → v.isFinite := by
    intro v hv
    exact hvalues (s, v) (mem_guardableValues.mpr
      ⟨(mem_recordedInvariants_iff_sole hs).mpr hv, hspec⟩)
  refine ⟨hrun, fun htwo hall calls hcalls v hv => ?_⟩
  set held := ((ranks run).map recordFile |>.map recordedInvariants).filterMap
    fun r => r.lookup (.name s) with hheld
  have hlookup : ∀ calls v, (recordedInvariants (recordFile calls)).lookup (.name s) = some v ↔
      @Sole frozen calls s v := by
    intro calls v
    rw [← mem_recordedInvariants_iff_sole hs]
    exact ⟨AssocLists.mem_of_lookup, AssocLists.lookup_of_mem (nodup_recordedInvariants _)⟩
  have hisSome : ∀ file ∈ (ranks run).map recordFile,
      ((recordedInvariants file).lookup (.name s)).isSome := by
    intro file hfile
    obtain ⟨calls, hcalls, rfl⟩ := mem_map.mp hfile
    exact (isSome_lookup_iff hs).mpr (hall calls hcalls)
  have hmem : ∀ calls ∈ ranks run, ∀ v, Sole calls s v → v ∈ held := by
    intro calls hcalls v hv
    exact mem_filterMap.mpr ⟨_, mem_map_of_mem (mem_map_of_mem hcalls), (hlookup calls v).mpr hv⟩
  by_cases hdiffer : 1 < (valueSet held).length
  · -- the name differs between the ranks
    have hkey : Key.name s ∈ recordedValueSets ((ranks run).map recordFile) :=
      mem_recordedValueSets.mpr ⟨by simpa using htwo, hisSome, hdiffer⟩
    refine hranks _ (mem_perRank.mpr ⟨⟨s, hkey, hspec⟩, calls, hcalls, rfl⟩) (s, v) ?_ hd
    refine mem_guardableValues.mpr ⟨mem_filterMap.mpr ⟨.name s, hkey, ?_⟩, hspec⟩
    rw [(hlookup calls v).mpr hv]
    rfl
  · -- all the ranks hold one value, which is then baked in
    have hheldOne : held.length = (ranks run).length := by
      rw [hheld, filterMap_length_eq_length.mpr ?_, length_map, length_map]
      intro r hr
      obtain ⟨file, hfile, rfl⟩ := mem_map.mp hr
      exact hisSome file hfile
    obtain ⟨w, hw⟩ : ∃ w, valueSet held = [w] := by
      cases hset : valueSet held with
      | nil => exact absurd (hmem calls hcalls v hv) (by simp [valueSet_eq_nil.mp hset])
      | cons w rest =>
        rw [hset, length_cons] at hdiffer
        exact ⟨w, by rw [length_eq_zero_iff.mp (by omega : rest.length = 0)]⟩
    obtain ⟨-, hsame, hnan⟩ := valueSet_eq_singleton.mp hw
    obtain rfl := hsame v (hmem calls hcalls v hv)
    have hreal : v ≠ .nan := fun h => by have := hnan h; omega
    obtain ⟨call, hcall⟩ := exists_mem_of_ne_nil calls hv.1
    refine hrun v ⟨ne_nil_of_mem (mem_flatten_of_rank hcalls hcall), ?_, fun h => absurd h hreal⟩
    intro call' hcall'
    obtain ⟨calls', hcalls', hcall'⟩ := exists_rank hcall'
    obtain ⟨v', hv'⟩ := hall calls' hcalls'
    rw [hv'.2.1 call' hcall']
    exact hsame v' (hmem calls' hcalls' v' hv')

/-! ## Every recorded call -/

/-- The alias reports of a run. -/
def runReports (run : List (List (Call frozen))) : List (List Report) :=
  run.flatten.map Call.reports

/-- `recorded_aliases` means every recorded call: what it returns is what all calls
reported, and an alias reported by the very calls that reported a member alias is
returned when that is, and only if every call reported that. -/
def AliasesOfEveryCall (calls : List (List Report)) : Prop :=
  ∃ aliases members,
    recordedAliases (some (aliasFile calls)) = .ok aliases ∧
    recordedMemberAliases (some (aliasFile calls)) = .ok members ∧
    (∀ a, a ∈ aliases ↔ calls ≠ [] ∧ ∀ call ∈ calls, a ∈ aliasesOf call) ∧
    (∀ a m, (∀ call ∈ calls, a ∈ aliasesOf call ↔ m ∈ memberAliasesOf call) →
      (m ∈ members → a ∈ aliases) ∧ (a ∈ aliases → ∀ call ∈ calls, m ∈ memberAliasesOf call))

/-- The guard built from the record of a run is Fortran and admits exactly the calls that
hold what was recorded, among them every call of the run. -/
def GuardAdmitsEveryCall (run : List (List (Call frozen))) : Prop :=
  ∃ guard, buildSpecializationGuard frozen (runSpecialization run) = .ok guard ∧
    (∀ line ∈ guard, line.IsFortran frozen) ∧
    (∀ call : Call frozen, admits guard call = true ↔ (runSpecialization run).HoldsIn call) ∧
    ∀ call ∈ run.flatten, admits guard call = true

/-- Where a call reported no alias, no alias is common to the calls that reported one. -/
def NoAliasLost (calls : List (List Report)) : Prop :=
  (∃ call ∈ calls, aliasesOf call = ∅) →
    ∀ a, (∃ call ∈ calls, a ∈ aliasesOf call) →
      ∃ call ∈ calls, (aliasesOf call).Nonempty ∧ a ∉ aliasesOf call

theorem aliasesOfEveryCall_iff (calls : List (List Report)) :
    AliasesOfEveryCall calls ↔ NoAliasLost calls := by
  obtain ⟨aliases, haliases, hmem⟩ := recordedAliases_eq calls
  obtain ⟨members, hmembers, hmemMembers⟩ := recordedMemberAliases_eq calls
  constructor
  · rintro ⟨aliases', -, haliases', -, hexact, -⟩ ⟨silent, hsilent, hempty⟩ a ⟨call, hcall, ha⟩
    obtain rfl : aliases = aliases' := Except.ok.inj (haliases.symm.trans haliases')
    by_contra hcommon
    push Not at hcommon
    have hin : a ∈ aliases :=
      (hmem a).mpr ⟨⟨call, hcall, a, ha⟩, fun c hc hne => hcommon c hc hne⟩
    have := ((hexact a).mp hin).2 silent hsilent
    rw [hempty] at this
    cases this
  · intro hlost
    have hexact : ∀ a, a ∈ aliases ↔ calls ≠ [] ∧ ∀ call ∈ calls, a ∈ aliasesOf call := by
      intro a
      rw [hmem]
      constructor
      · rintro ⟨⟨call, hcall, hne⟩, hall⟩
        refine ⟨ne_nil_of_mem hcall, fun c hc => ?_⟩
        by_cases hempty : aliasesOf c = ∅
        · obtain ⟨other, hother, hne', hnot⟩ :=
            hlost ⟨c, hc, hempty⟩ a ⟨call, hcall, hall call hcall hne⟩
          exact absurd (hall other hother hne') hnot
        · exact hall c hc (Finset.nonempty_iff_ne_empty.mpr hempty)
      · rintro ⟨hne, hall⟩
        obtain ⟨call, hcall⟩ := exists_mem_of_ne_nil calls hne
        exact ⟨⟨call, hcall, a, hall call hcall⟩, fun c hc _ => hall c hc⟩
    refine ⟨aliases, members, haliases, hmembers, hexact, fun a m hsame => ⟨fun hm => ?_, ?_⟩⟩
    · obtain ⟨hne, hall, -⟩ := (hmemMembers m).mp hm
      exact (hexact a).mpr ⟨hne, fun call hcall => (hsame call hcall).mpr (hall call hcall)⟩
    · intro ha call hcall
      exact (hsame call hcall).mp (((hexact a).mp ha).2 call hcall)

/-- A guard is built for finite values only. -/
theorem isFinite_of_ok {spec : Specialization} {guard : List Line}
    (h : buildSpecializationGuard frozen spec = .ok guard) : ∀ v ∈ spec.values, v.2.isFinite := by
  intro v hv
  by_contra hnot
  have hnonFinite : sorted ((spec.values.filter fun v => !v.2.isFinite).map Prod.fst) ≠ [] := by
    rw [ne_eq, sorted_eq_nil]
    exact ne_nil_of_mem (mem_map_of_mem (mem_filter.mpr ⟨hv, by simpa using hnot⟩))
  rw [buildSpecializationGuard] at h
  simp only [hnonFinite, ne_eq, not_false_eq_true, if_true] at h
  split at h <;> cases h

theorem guardAdmitsEveryCall_iff (run : List (List (Call frozen))) :
    GuardAdmitsEveryCall run ↔ ArraysWhole run.flatten ∧ FiniteRecorded run := by
  have hspecializable : ∀ values ∈ (runSpecialization run).perRank, ∀ v ∈ values,
      frozen.specializable v.1 = true := by
    intro values hvalues v hv
    obtain ⟨-, calls, -, rfl⟩ := mem_perRank.mp hvalues
    exact (mem_guardableValues.mp hv).2
  have hwritable : unwritable frozen (runSpecialization run).perRank.flatten = [] := by
    rw [unwritable, filter_eq_nil_iff]
    intro v hv
    obtain ⟨values, hvalues, hv⟩ := mem_flatten.mp hv
    obtain ⟨-, calls, -, rfl⟩ := mem_perRank.mp hvalues
    by_cases hd : frozen.dtype v.1 = .integer
    · simp [isFinite_of_not_float (mem_guardableValues_rank _ hv).1 (by simp [hd])]
    · simp [hd]
  have hadmits := @admits_iff frozen (runSpecialization run)
    (fun v hv => specializable_of_mem_guardableValues hv) hspecializable
  rw [← arrays_held_iff]
  constructor
  · rintro ⟨guard', hguard', hfortran, -, hall⟩
    have hfinite := isFinite_of_ok hguard'
    obtain ⟨guard, hguard, hranks, hadmits⟩ := hadmits hfinite hwritable
    obtain rfl : guard = guard' := Except.ok.inj (hguard.symm.trans hguard')
    exact ⟨fun call hcall => ((hadmits call).mp (hall call hcall)).arrays,
      finiteRecorded_of_guard hfinite (hranks.mp hfortran)⟩
  · rintro ⟨harrays, hrecorded⟩
    have hvalues := values_isFinite hrecorded
    have hperRank := perRank_isFinite hrecorded
    obtain ⟨guard, hguard, hranks, hadmits⟩ := hadmits hvalues hwritable
    refine ⟨guard, hguard, hranks.mpr fun values hvs v hv _ => hperRank values hvs v hv, hadmits,
      fun call hcall => (hadmits call).mpr ⟨?_, harrays call hcall, perRank_held hperRank hcall⟩⟩
    intro v hv
    exact holds_of_mem_guardableValues hcall (hvalues v hv) hv

/-- A binding with an extent the wrapper computes, a time step and a small module array. -/
def stepBinding : Frozen where
  symbols := ["nx"]
  assigns := fun s => if s = "nx" then some true else none
  scalars := [("dt", .float)]
  sources := ["nbnd"]
  assigned := by
    intro s hs
    by_cases h : s = "nx"
    · simp [h]
    · simp [h] at hs
  scalars_distinct := by simp
  distinct := by simp
  apart := by simp

/-- A call of it with the given reports. -/
def stepCall (reports : List Report) : Call stepBinding where
  value := fun s => match stepBinding.dtype s with
    | .logical => true
    | .integer => (8 : Int)
    | .float => Value.finite (1 / 4)
  array := fun s => if s = "nbnd" then some [0, 2] else none
  reports := reports

end SpecializationGuard
