/-
# `SELECTED_INT_KIND` and `SELECTED_REAL_KIND`

The byte count the evaluator computes with a logarithm is the first integer kind
that holds the requested range, for a range that is not negative; and the real
kinds it folds are the ones every processor with IEEE single and double selects.
-/
import DaceFortran.ConstEval.Intrinsics

open TwosComplement List

namespace ConstEval

variable {P : Processor}

/-! ## `SELECTED_INT_KIND` -/

variable {r d n : ℤ} {w : Value P}

/-- The byte count is at most `k` exactly when a word of `k` bytes holds the range. -/
theorem wordBytes_le_iff (hr : 0 ≤ r) {k : ℕ} (hk : 0 < k) :
    wordBytes r ≤ k ↔ 10 ^ r.toNat ≤ 2 ^ (8 * k - 1) := by
  rw [wordBytes, if_pos hr, Nat.cast_le, ← Nat.clog_le_iff_le_pow (by decide)]
  omega

/-- **The kind of a range**: numpy's choice is Fortran's unless the range is negative. -/
theorem evalSelectedIntKind_spec (hr : -323 ≤ r) (h8 : wordBytes r ≤ 8) :
    ∃ k, evalSelectedIntKind r = .ok k ∧ (k = selectedIntKind r ↔ ¬r < 0) ∧
      Fits (8 * NpInt.int32.countBytes) k := by
  have hrange : ∀ k : ℤ, -1000 ≤ k → k ≤ 8 → Fits (8 * NpInt.int32.countBytes) k := by
    intro k hlo hhi
    unfold Fits NpInt.countBytes
    constructor <;> norm_num <;> omega
  refine ⟨if wordBytes r ≤ 2 then wordBytes r else if wordBytes r ≤ 4 then 4 else 8, ?_, ?_, ?_⟩
  · simp only [evalSelectedIntKind]
    rw [if_neg (by omega), if_neg (by omega)]
  · by_cases hneg : r < 0
    · -- the logarithm of a fraction gives no kind, and Fortran gives the smallest
      have hw : wordBytes r ≤ 0 := by
        rw [wordBytes, if_neg (by omega)]
        omega
      have hsel : selectedIntKind r = 1 := by
        simp [selectedIntKind, intKinds, hneg]
      rw [if_pos (by omega), hsel]
      refine iff_of_false (by omega) (by simpa using hneg)
    · refine iff_of_true ?_ hneg
      have hr0 : 0 ≤ r := by omega
      have h1 := wordBytes_le_iff hr0 (k := 1) (by decide)
      have h2 := wordBytes_le_iff hr0 (k := 2) (by decide)
      have h4 := wordBytes_le_iff hr0 (k := 4) (by decide)
      have h8' := wordBytes_le_iff hr0 (k := 8) (by decide)
      have hpos : 1 ≤ wordBytes r := by
        rw [wordBytes, if_pos hr0]
        omega
      unfold selectedIntKind intKinds
      simp only [List.find?_cons, hneg, false_or, ← h1, ← h2, ← h4, ← h8']
      by_cases c1 : wordBytes r ≤ 1
      · have : wordBytes r = 1 := by omega
        simp [this]
      · by_cases c2 : wordBytes r ≤ 2
        · have : wordBytes r = 2 := by omega
          simp [this]
        · by_cases c4 : wordBytes r ≤ 4
          · simp [c1, c2, c4]
          · simp [c1, c2, c4, h8]
  · apply hrange
    · split_ifs
      · by_cases hneg : r < 0
        · -- `10 ^ 323` has fewer than 1100 bits
          rw [wordBytes, if_neg (by omega)]
          have hlog : Nat.log 2 (10 ^ (-r).toNat) ≤ 4 * 323 := by
            have hle : Nat.log 2 (10 ^ (-r).toNat) ≤ Nat.log 2 (2 ^ (4 * (-r).toNat)) := by
              apply Nat.log_mono_right
              rw [pow_mul]
              exact Nat.pow_le_pow_left (by decide) _
            rw [Nat.log_pow (by decide)] at hle
            omega
          omega
        · rw [wordBytes, if_pos (by omega)]
          omega
      · omega
      · omega
    · split_ifs <;> omega

/-- The value of an integer argument. -/
theorem integerArg_some {v : Value P} (h : integerArg d (some v) = some n) :
    ∃ k, v = .int k n := by
  rcases v with ⟨k, m⟩ | ⟨k, x⟩ | ⟨k, b⟩
  · obtain rfl := Option.some.inj h
    exact ⟨k, rfl⟩
  · cases h
  · cases h

variable {os : List (Option String × Outcome)} {rs : List (Option String × Result P)}
  {ws : List (Option String × Value P)}

/-- **`SELECTED_INT_KIND`** follows its outcome; a negative range is its mismatch. -/
theorem selectedIntKind_follows
    (hargs : ArgsFollow rs os ws)
    (hf : intrinsicFortran .selectedIntKind ws = some w) :
    ∃ keyword v, ws = [(keyword, v)] ∧
      Follows (intrinsicValue .selectedIntKind rs)
        (intrinsicOutcome .selectedIntKind (ws.map fun q => (q.1, some q.2)) os)
        (fun u => u.value = w ↔ ¬Value.number (some v) < 0) := by
  obtain ⟨assoc, hassoc, hf⟩ := Option.bind_eq_some_iff.mp hf
  obtain ⟨r, hr, hf⟩ := Option.bind_eq_some_iff.mp hf
  obtain ⟨v, hv, hr⟩ := Option.bind_eq_some_iff.mp hr
  obtain rfl := Option.some.inj hf
  obtain ⟨k, rfl⟩ := integerArg_some hr
  obtain ⟨keyword, rfl⟩ := associate_only hassoc hv
  refine ⟨keyword, _, rfl, ?_⟩
  rcases hargs with _ | ⟨h₁, _ | _⟩
  refine bind_follows (argValue_follows keyword h₁) ?_ rfl
  rintro a ⟨-, ha⟩
  obtain ⟨t, b, rfl, -, hb⟩ := Scalar.eq_int_of_value ha
  show Follows (do return some (.ofInt .int32 (← evalSelectedIntKind b.toInt)))
    (selectedIntKindOutcome r) (fun u => u.value = _ ↔ ¬r < 0)
  rw [hb]
  unfold selectedIntKindOutcome
  by_cases hlo : r < -323
  · rw [if_pos (Or.inl hlo), evalSelectedIntKind, if_pos hlo]
    exact follows_raises rfl
  · by_cases hhi : 8 < wordBytes r
    · rw [if_pos (Or.inr hhi), evalSelectedIntKind, if_neg hlo]
      simp only [if_pos hhi]
      exact follows_raises rfl
    · rw [if_neg (by tauto)]
      obtain ⟨n, hn, hiff, hfit⟩ := evalSelectedIntKind_spec (not_lt.mp hlo) (not_lt.mp hhi)
      rw [hn]
      refine follows_value rfl ?_
      rw [Scalar.value_ofInt hfit, ← hiff]
      constructor
      · intro h
        injection h
      · rintro rfl
        rfl

/-! ## `SELECTED_REAL_KIND` -/

/-- The numbers of an association. -/
def numbers (assoc : List (String × Value P)) : List (String × ℤ) :=
  assoc.map fun q => (q.1, Value.number (some q.2))

/-- **The matching loop** finds Fortran's association, up to the first argument that does
not fold. -/
theorem selectedRealKindLoop_follows
    (hargs : ArgsFollow rs os ws) :
    ∀ {position : ℕ} {seen : Bool} (values : List (String × ℤ)) {assoc : List (String × Value P)},
      associate selectedRealKindNames position seen ws = some assoc →
      (∀ q ∈ assoc, ∃ k n, q.2 = .int k n) → (∀ q ∈ assoc, q.1 ∉ values.map Prod.fst) →
      match firstOutcome (os.map Prod.snd) with
      | .value => selectedRealKindLoop position seen values rs =
          .ok (some (values ++ numbers assoc))
      | .none => selectedRealKindLoop position seen values rs = .ok none
      | .raises => ∃ x, selectedRealKindLoop position seen values rs = .error x := by
  induction hargs with
  | nil =>
    intro position seen values assoc h _ _
    obtain rfl := Option.some.inj h
    show _ = Except.ok (some (values ++ []))
    rw [append_nil]
    rfl
  | @cons keyword r o w rs os ws head tail ih =>
    intro position seen values assoc h hint hfresh
    obtain ⟨name, rest, rfl, hname, hnot, hrest, hkey⟩ := associate_cons h
    obtain ⟨k, n, hw⟩ := hint _ (mem_cons_self ..)
    have hnew : name ∉ values.map Prod.fst := hfresh _ (mem_cons_self ..)
    have hrec : selectedRealKindName position seen keyword = some name := by
      rcases hkey with rfl | ⟨rfl, rfl, hpos⟩
      · rfl
      · exact hpos
    have hok : ¬(name ∉ selectedRealKindNames ∨ name ∈ values.map Prod.fst) := by
      rintro (h' | h')
      · exact h' hname
      · exact hnew h'
    rcases o with _ | _ | _
    case value =>
      obtain ⟨v, rfl, hv⟩ := head
      simp only at hw
      obtain ⟨t, b, rfl, -, hb⟩ := Scalar.eq_int_of_value (hv.trans hw)
      have hih := ih (values ++ [(name, b.toInt)]) hrest
        (fun q hq => hint q (mem_cons_of_mem _ hq)) (by
          intro q hq hmem
          rw [map_append, mem_append] at hmem
          rcases hmem with hmem | hmem
          · exact hfresh q (mem_cons_of_mem _ hq) hmem
          · apply hnot
            rw [← show q.1 = name from mem_singleton.mp hmem]
            exact mem_map.mpr ⟨q, hq, rfl⟩)
      have hnum : values ++ [(name, b.toInt)] ++ numbers rest =
          values ++ numbers ((name, w) :: rest) := by
        rw [hw, numbers, numbers, map_cons, append_assoc, singleton_append, hb]
        rfl
      rw [hnum] at hih
      simp only [selectedRealKindLoop, hrec, if_neg hok]
      exact hih
    case none =>
      rw [show r = .ok none from head]
      show selectedRealKindLoop position seen values ((keyword, .ok none) :: rs) = .ok none
      simp only [selectedRealKindLoop, hrec, if_neg hok]
      rfl
    case raises =>
      obtain ⟨x, rfl⟩ := head
      refine ⟨x, ?_⟩
      simp only [selectedRealKindLoop, hrec, if_neg hok]
      rfl

/-- Arguments that all have values. -/
theorem allValues_map (ws : List (Option String × Value P)) :
    allValues (ws.map fun q => (q.1, some q.2)) = some ws := by
  induction ws with
  | nil => rfl
  | cons q rest ih =>
    rw [map_cons, allValues, ih]
    rfl

/-- Looking a dummy up among the numbers. -/
theorem lookup_numbers (name : String) (assoc : List (String × Value P)) :
    lookup name (numbers assoc) = (actual name assoc).map fun v => Value.number (some v) := by
  induction assoc with
  | nil => rfl
  | cons q rest ih =>
    unfold lookup actual numbers at *
    rw [map_cons, List.find?_cons, List.find?_cons]
    by_cases hq : q.1 = name
    · simp [hq]
    · simpa [hq] using ih

/-- **The real kinds that are folded** are those every processor selects. -/
theorem evalSelectedRealKind_spec {p r radix : Option ℤ} {k : ℤ}
    (h : evalSelectedRealKind p r radix = some k) :
    selectedRealKind P.realKinds (p.getD 0) (r.getD 0) (radix.getD 2) = k ∧ (k = 4 ∨ k = 8) := by
  unfold evalSelectedRealKind at h
  rw [Option.ite_none_left_eq_some] at h
  obtain ⟨hc, h⟩ := h
  have hradix : radix.getD 2 = 2 := by
    rw [not_and_or, not_not, not_not] at hc
    rcases hc with rfl | rfl <;> rfl
  rcases p with _ | p
  · cases h
  · simp only at h
    rw [Option.ite_none_left_eq_some] at h
    obtain ⟨hp, h⟩ := h
    -- the narrow kinds are not precise enough
    have hnarrow : P.narrow.find? (fun q => decide (p ≤ q.precision ∧ r.getD 0 ≤ q.range)) =
        none := by
      rw [List.find?_eq_none]
      intro q hq
      have hprec := P.narrow_precision q hq
      simp only [decide_eq_true_eq, not_and]
      omega
    rw [selectedRealKind, hradix]
    simp only [Option.getD_some, ne_eq, not_true_eq_false, if_false, Processor.realKinds,
      List.find?_append, hnarrow, Option.none_or, List.find?_cons]
    by_cases h4 : p ≤ 6 ∧ r.getD 0 ≤ 37
    · rw [if_pos h4] at h
      obtain rfl := Option.some.inj h
      simp [h4]
    · rw [if_neg h4, Option.ite_none_right_eq_some] at h
      obtain ⟨h8, h⟩ := h
      obtain rfl := Option.some.inj h
      simp [h4, h8]

/-- Integer arguments throughout: an association whose dummies all have integer values. -/
theorem all_int_of_integerArg {assoc : List (String × Value P)} {p radix : ℤ}
    {args : List (Option String × Value P)}
    (h : associate selectedRealKindNames 0 false args = some assoc)
    (hp : integerArg 0 (actual "P" assoc) = some p)
    (hr : integerArg 0 (actual "R" assoc) = some r)
    (hx : integerArg 2 (actual "RADIX" assoc) = some radix) :
    ∀ q ∈ assoc, ∃ k n, q.2 = .int k n := by
  obtain ⟨-, hnd, hsub⟩ := associate_spec h
  rintro ⟨name, v⟩ hq
  have hv := actual_eq hnd hq
  have hname := hsub name (mem_map.mpr ⟨_, hq, rfl⟩)
  simp only [selectedRealKindNames, mem_cons, not_mem_nil, or_false] at hname
  rcases hname with rfl | rfl | rfl
  · rw [hv] at hp
    obtain ⟨k, hk⟩ := integerArg_some hp
    exact ⟨k, p, hk⟩
  · rw [hv] at hr
    obtain ⟨k, hk⟩ := integerArg_some hr
    exact ⟨k, r, hk⟩
  · rw [hv] at hx
    obtain ⟨k, hk⟩ := integerArg_some hx
    exact ⟨k, radix, hk⟩

/-- The number of an argument, or its default. -/
theorem integerArg_eq {v : Option (Value P)} (h : integerArg d v = some n) :
    (v.map fun v => Value.number (some v)).getD d = n := by
  rcases v with _ | v
  · exact Option.some.inj h
  · obtain ⟨k, rfl⟩ := integerArg_some h
    rfl

/-- **`SELECTED_REAL_KIND`** follows its outcome. -/
theorem selectedRealKind_follows
    (hargs : ArgsFollow rs os ws)
    (hf : intrinsicFortran .selectedRealKind ws = some w) :
    Follows (intrinsicValue .selectedRealKind rs)
      (intrinsicOutcome .selectedRealKind (ws.map fun q => (q.1, some q.2)) os)
      (fun u => u.value = w) := by
  obtain ⟨assoc, hassoc, hf⟩ := Option.bind_eq_some_iff.mp hf
  split_ifs at hf with habs
  obtain ⟨p, hp, hf⟩ := Option.bind_eq_some_iff.mp hf
  obtain ⟨r, hr, hf⟩ := Option.bind_eq_some_iff.mp hf
  obtain ⟨radix, hx, hf⟩ := Option.bind_eq_some_iff.mp hf
  obtain rfl := Option.some.inj hf
  have hint := all_int_of_integerArg hassoc hp hr hx
  have hloop := selectedRealKindLoop_follows hargs [] hassoc hint (by simp)
  have hvals : (allValues (ws.map fun q => (q.1, some q.2))).bind
      (associate selectedRealKindNames 0 false) = some assoc := by
    rw [allValues_map]
    exact hassoc
  simp only [intrinsicOutcome, hvals]
  show Follows (selectedRealKindValue rs) _ _
  unfold selectedRealKindValue
  revert hloop
  rcases firstOutcome (os.map Prod.snd) with _ | _ | _
  case none =>
    intro hloop
    rw [show selectedRealKindLoop 0 false [] rs = .ok none from hloop]
    exact follows_none rfl
  case raises =>
    rintro ⟨x, hx⟩
    rw [hx]
    exact follows_raises rfl
  case value =>
    intro hloop
    rw [show selectedRealKindLoop 0 false [] rs = .ok (some (numbers assoc)) from hloop]
    simp only [if_true, bind, Except.bind]
    have hpr : ¬(lookup "P" (numbers assoc) = none ∧ lookup "R" (numbers assoc) = none) := by
      rw [lookup_numbers, lookup_numbers]
      simpa using habs
    rw [if_neg hpr]
    simp only [lookup_numbers]
    rcases hk : evalSelectedRealKind ((actual "P" assoc).map fun v => Value.number (some v))
        ((actual "R" assoc).map fun v => Value.number (some v))
        ((actual "RADIX" assoc).map fun v => Value.number (some v)) with _ | k
    · exact follows_none rfl
    · obtain ⟨hsel, hk48⟩ := evalSelectedRealKind_spec (P := P) hk
      rw [integerArg_eq hp, integerArg_eq hr, integerArg_eq hx] at hsel
      refine follows_value rfl ?_
      rw [hsel]
      apply Scalar.value_ofInt
      rcases hk48 with rfl | rfl <;> decide

end ConstEval
