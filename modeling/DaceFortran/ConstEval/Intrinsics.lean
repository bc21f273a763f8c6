/-
# The integer-foldable intrinsics

Argument association as Fortran defines it against the positional and keyword
matching of the evaluator, and each of `MOD`, `MODULO`, `INT`,
`SELECTED_INT_KIND` and `SELECTED_REAL_KIND` on associated arguments.
-/
import DaceFortran.ConstEval.Constants
import Mathlib.Data.List.Perm.Subperm
import Mathlib.Data.List.Nodup

open TwosComplement List

namespace ConstEval

variable {P : Processor}

/-! ## Argument association -/

section Associate

variable {α : Type} {names : List String}

variable {assoc : List (String × α)} {args : List (Option String × α)}

variable {position : ℕ} {seen : Bool} {v a : α} {name x y : String}

/-- The dummy an argument goes to, and the rest of the association. -/
theorem associate_cons {keyword : Option String} {value : α}
    {rest : List (Option String × α)}
    (h : associate names position seen ((keyword, value) :: rest) = some assoc) :
    ∃ name tail, assoc = (name, value) :: tail ∧ name ∈ names ∧ name ∉ tail.map Prod.fst ∧
      associate names (position + 1) (seen || keyword.isSome) rest = some tail ∧
      (keyword = some name ∨ keyword = none ∧ seen = false ∧ names[position]? = some name) := by
  simp only [associate] at h
  obtain ⟨name, hname, h⟩ := Option.bind_eq_some_iff.mp h
  obtain ⟨tail, htail, h⟩ := Option.bind_eq_some_iff.mp h
  split_ifs at h with hmem
  refine ⟨name, tail, (Option.some.inj h).symm, ?_, hmem, htail, ?_⟩
  · rcases keyword with _ | k
    · rw [dummyOf] at hname
      split_ifs at hname
      exact mem_of_getElem? hname
    · rw [dummyOf] at hname
      split_ifs at hname with hk
      obtain rfl := Option.some.inj hname
      exact hk
  · rcases keyword with _ | k
    · rw [dummyOf] at hname
      split_ifs at hname with hs
      exact Or.inr ⟨rfl, by simpa using hs, hname⟩
    · rw [dummyOf] at hname
      split_ifs at hname
      exact Or.inl (by rw [Option.some.inj hname])

/-- Every argument goes to a dummy of its own. -/
theorem associate_spec :
    ∀ {position : ℕ} {seen : Bool} {assoc : List (String × α)},
      associate names position seen args = some assoc →
      assoc.length = args.length ∧ (assoc.map Prod.fst).Nodup ∧
        ∀ name ∈ assoc.map Prod.fst, name ∈ names := by
  induction args with
  | nil =>
    intro position seen assoc h
    obtain rfl := Option.some.inj h
    simp
  | cons q rest ih =>
    obtain ⟨keyword, value⟩ := q
    intro position seen assoc h
    obtain ⟨name, tail, rfl, hname, hnot, htail, -⟩ := associate_cons h
    obtain ⟨hlen, hnd, hsub⟩ := ih htail
    refine ⟨by simp [hlen], ?_, ?_⟩
    · rw [map_cons, nodup_cons]
      exact ⟨hnot, hnd⟩
    · intro n hn
      rw [map_cons, mem_cons] at hn
      rcases hn with rfl | hn
      · exact hname
      · exact hsub n hn

/-- No more arguments than dummies. -/
theorem associate_length_le
    (h : associate names position seen args = some assoc) :
    args.length ≤ names.length := by
  obtain ⟨hlen, hnd, hsub⟩ := associate_spec h
  have hle := (hnd.subperm hsub).length_le
  rw [length_map] at hle
  omega

/-- An associated dummy is one of the association. -/
theorem actual_mem
    (h : actual name assoc = some v) : (name, v) ∈ assoc := by
  unfold actual at h
  obtain ⟨q, hq, rfl⟩ := Option.map_eq_some_iff.mp h
  have hn := List.find?_some hq
  simp only [decide_eq_true_eq] at hn
  rw [← hn]
  exact mem_of_find?_eq_some hq

/-- The value of a dummy of the association is its actual. -/
theorem actual_eq
    (hnd : (assoc.map Prod.fst).Nodup) (h : (name, v) ∈ assoc) :
    actual name assoc = some v := by
  induction assoc with
  | nil => cases h
  | cons q rest ih =>
    rw [map_cons, nodup_cons] at hnd
    unfold actual
    rw [List.find?_cons]
    rcases mem_cons.mp h with rfl | hmem
    · simp
    · have hne : q.1 ≠ name := by
        rintro rfl
        exact hnd.1 (mem_map.mpr ⟨_, hmem, rfl⟩)
      simp only [hne, decide_false]
      exact ih hnd.2 hmem

/-- Dummies that are all associated leave no fewer arguments. -/
theorem length_le_of_actual
    (h : associate names 0 false args = some assoc) {present : List String}
    (hnd : present.Nodup) (hp : ∀ name ∈ present, (actual name assoc).isSome) :
    present.length ≤ args.length := by
  obtain ⟨hlen, -, -⟩ := associate_spec h
  have hsub : present ⊆ assoc.map Prod.fst := by
    intro name hname
    obtain ⟨v, hv⟩ := Option.isSome_iff_exists.mp (hp name hname)
    exact mem_map.mpr ⟨_, actual_mem hv, rfl⟩
  have hle := (hnd.subperm hsub).length_le
  rw [length_map, hlen] at hle
  exact hle

/-- Both of two dummies: there are two arguments, in order when both are positional. -/
theorem associate_two (hxy : x ≠ y)
    (h : associate [x, y] 0 false args = some assoc) {b : α}
    (ha : actual x assoc = some a) (hb : actual y assoc = some b) :
    ∃ k₁ k₂ v₁ v₂, args = [(k₁, v₁), (k₂, v₂)] ∧
      (k₁ = none → k₂ = none → v₁ = a ∧ v₂ = b) := by
  have hle := associate_length_le h
  have hge : [x, y].length ≤ args.length := by
    apply length_le_of_actual h
    · simpa using hxy
    · simp [ha, hb]
  obtain ⟨⟨k₁, v₁⟩, ⟨k₂, v₂⟩, rfl⟩ := length_eq_two.mp (Nat.le_antisymm hle hge)
  refine ⟨k₁, k₂, v₁, v₂, rfl, ?_⟩
  rintro rfl rfl
  have hassoc : associate [x, y] 0 false [(none, v₁), (none, v₂)] =
      some [(x, v₁), (y, v₂)] := by
    simp [associate, dummyOf, hxy]
  rw [hassoc] at h
  obtain rfl := Option.some.inj h
  simp [actual] at ha
  simp [actual, hxy] at hb
  exact ⟨ha, hb⟩

/-- The first of two dummies alone: there is one argument. -/
theorem associate_first
    (h : associate [x, y] 0 false args = some assoc)
    (ha : actual x assoc = some a) (hb : actual y assoc = none) :
    ∃ k, args = [(k, a)] := by
  obtain ⟨hlen, hnd, hsub⟩ := associate_spec h
  have hall : ∀ q ∈ assoc, q = (x, a) := by
    rintro ⟨name, v⟩ hq
    have hv := actual_eq hnd hq
    rcases mem_pair.mp (hsub name (mem_map.mpr ⟨_, hq, rfl⟩)) with rfl | rfl
    · rw [ha] at hv
      rw [Option.some.inj hv]
    · rw [hb] at hv
      cases hv
  rcases args with _ | ⟨⟨k, v⟩, rest⟩
  · obtain rfl := Option.some.inj h
    cases ha
  · obtain ⟨name, tail, rfl, -, hnot, htail, -⟩ := associate_cons h
    have hhead := hall (name, v) (mem_cons_self ..)
    rcases rest with _ | ⟨⟨k', v'⟩, rest⟩
    · exact ⟨k, by rw [(Prod.mk.inj hhead).2]⟩
    · -- a second argument would be the same dummy again
      obtain ⟨name', tail', rfl, -⟩ := associate_cons htail
      have hsecond := hall (name', v') (by simp)
      exfalso
      apply hnot
      rw [(Prod.mk.inj hhead).1, ← (Prod.mk.inj hsecond).1]
      simp

/-- The only dummy: there is one argument. -/
theorem associate_only
    (h : associate [x] 0 false args = some assoc)
    (ha : actual x assoc = some a) : ∃ k, args = [(k, a)] := by
  have hle := associate_length_le h
  rcases args with _ | ⟨⟨k, v⟩, _ | ⟨q, rest⟩⟩
  · obtain rfl := Option.some.inj h
    cases ha
  · obtain ⟨name, tail, rfl, hname, -, htail, -⟩ := associate_cons h
    obtain rfl := Option.some.inj htail
    obtain rfl := mem_singleton.mp hname
    simp [actual] at ha
    exact ⟨k, by rw [ha]⟩
  · simp at hle

end Associate

/-! ## Arguments and their outcomes -/

/-- Each argument follows its outcome, with a Fortran value. -/
inductive ArgsFollow : List (Option String × Result P) → List (Option String × Outcome) →
    List (Option String × Value P) → Prop
  | nil : ArgsFollow [] [] []
  | cons {keyword : Option String} {r : Result P} {o : Outcome} {w : Value P}
      {rs : List (Option String × Result P)} {os : List (Option String × Outcome)}
      {ws : List (Option String × Value P)}
      (head : Follows r o fun v => v.value = w) (tail : ArgsFollow rs os ws) :
      ArgsFollow ((keyword, r) :: rs) ((keyword, o) :: os) ((keyword, w) :: ws)

variable {w : Value P}

variable {o : Outcome} {good : Scalar P → Prop} {os : List (Option String × Outcome)}
  {rs : List (Option String × Result P)} {ws : List (Option String × Value P)}

/-- A positional argument follows its own outcome; a keyword argument is not evaluated. -/
theorem argValue_follows (keyword : Option String) {r : Result P}
    (h : Follows r o fun v => v.value = w) :
    Follows (argValue (keyword, r)) (argOutcome (keyword, o))
      (fun v => keyword = none ∧ v.value = w) := by
  rcases keyword with _ | k
  · cases o with
    | value =>
      obtain ⟨v, hv, hw⟩ := h
      exact ⟨v, hv, rfl, hw⟩
    | none => exact h
    | raises => exact h
  · exact follows_none rfl

/-! ## `MOD` and `MODULO` -/

/-- Integer types of as many bytes are the same. -/
theorem NpInt.eq_of_countBytes {s t : NpInt} (h : s.countBytes = t.countBytes) : s = t := by
  cases s <;> cases t <;> first | rfl | cases h

/-- Floating types of as many bytes are the same. -/
theorem NpReal.eq_of_countBytes {s t : NpReal} (h : s.countBytes = t.countBytes) : s = t := by
  cases s <;> cases t <;> first | rfl | cases h

theorem NpReal.join_self (s : NpReal) : s.join s = s := by
  cases s <;> rfl

variable {modulo : Bool} {k : ℕ}

/-- The remainder of two scalars. -/
theorem modValue_spec {a p : Scalar P}
    (h : modFortran modulo a.value p.value = some w) :
    ∃ v, modValue modulo [some a, some p] = .ok (some v) ∧ v.value = w := by
  rcases a with ⟨s, v⟩ | ⟨s, x⟩ | c <;> rcases p with ⟨t, u⟩ | ⟨t, y⟩ | d
  case int.int =>
    simp only [Scalar.value_int, modFortran] at h
    rw [Option.ite_none_right_eq_some] at h
    obtain ⟨⟨hk, hu⟩, h⟩ := h
    obtain rfl := NpInt.eq_of_countBytes hk
    refine ⟨_, rfl, ?_⟩
    rw [remainderValue, if_neg hu]
    apply value_ofInt_join
    have hfits : Fits (8 * s.countBytes)
        (if modulo then v.toInt.fmod u.toInt else v.toInt.tmod u.toInt) := by
      split_ifs
      · exact fits_fmod (fits_toInt u) hu
      · exact fits_tmod (fits_toInt u) hu
    rw [max_self, Value.ofInt?, if_pos hfits, ← h]
  case real.real =>
    -- MOD takes two reals of one kind
    simp only [Scalar.value_real, modFortran] at h
    rw [Option.dite_none_right_eq_some] at h
    obtain ⟨hk, h⟩ := h
    obtain rfl := NpReal.eq_of_countBytes hk
    refine ⟨_, rfl, ?_⟩
    rw [remainderValue, Scalar.value_real, NpReal.join_self, P.convert_self, P.convert_self]
    exact Option.some.inj h
  all_goals cases h

/-- **One evaluated operand**: `None` is passed on. -/
theorem bind_follows {x : Result P} {p : Outcome} {g : Scalar P → Prop}
    {f : Option (Scalar P) → Result P}
    (h : Follows x p g) (hsome : ∀ a, g a → Follows (f (some a)) o good)
    (hnone : f none = .ok none) :
    Follows (do f (← x)) (if p = .value then o else p) good := by
  rcases p with _ | _ | _
  case value =>
    obtain ⟨a, rfl, ha⟩ := h
    exact hsome a ha
  case none =>
    rw [show x = .ok none from h]
    exact follows_none hnone
  case raises =>
    obtain ⟨e, rfl⟩ := h
    exact follows_raises rfl

/-- **Two evaluated operands**: an exception of either wins, then `None` of either. -/
theorem bind₂_follows {x y : Result P} {p q : Outcome} {g₁ g₂ : Scalar P → Prop}
    {f : Option (Scalar P) → Option (Scalar P) → Result P}
    (hx : Follows x p g₁) (hy : Follows y q g₂)
    (hboth : ∀ a b, g₁ a → g₂ b → Follows (f (some a) (some b)) o good)
    (hnone : ∀ u v, u = none ∨ v = none → f u v = .ok none) :
    Follows (do
        let u ← x
        let v ← y
        f u v)
      (if allOutcome [p, q] = .value then o else allOutcome [p, q]) good := by
  rcases p with _ | _ | _
  case raises =>
    obtain ⟨e, rfl⟩ := hx
    exact follows_raises rfl
  all_goals rcases q with _ | _ | _
  case value.value =>
    obtain ⟨a, rfl, ha⟩ := hx
    obtain ⟨b, rfl, hb⟩ := hy
    exact hboth a b ha hb
  case value.none =>
    obtain ⟨a, rfl, -⟩ := hx
    rw [show y = .ok none from hy]
    exact follows_none (hnone _ _ (Or.inr rfl))
  case value.raises =>
    obtain ⟨a, rfl, -⟩ := hx
    obtain ⟨e, rfl⟩ := hy
    exact follows_raises rfl
  case none.value =>
    obtain ⟨b, rfl, -⟩ := hy
    rw [show x = .ok none from hx]
    exact follows_none (hnone _ _ (Or.inl rfl))
  case none.none =>
    rw [show x = .ok none from hx, show y = .ok none from hy]
    exact follows_none (hnone _ _ (Or.inl rfl))
  case none.raises =>
    rw [show x = .ok none from hx]
    obtain ⟨e, rfl⟩ := hy
    exact follows_raises rfl

/-- **`MOD` and `MODULO`** follow their outcome. -/
theorem mod_follows
    {assoc : List (String × Value P)} {a p w : Value P} (hargs : ArgsFollow rs os ws)
    (hassoc : associate ["A", "P"] 0 false ws = some assoc)
    (ha : actual "A" assoc = some a) (hp : actual "P" assoc = some p)
    (h : modFortran modulo a p = some w) :
    Follows (do modValue modulo (← rs.mapM argValue)) (allOutcome (os.map argOutcome))
      (fun v => v.value = w) := by
  obtain ⟨k₁, k₂, v₁, v₂, rfl, hpos⟩ := associate_two (by decide) hassoc ha hp
  rcases hargs with _ | ⟨h₁, _ | ⟨h₂, _ | _⟩⟩
  have hfollows : Follows _ _ (fun v => v.value = w) :=
    bind₂_follows (f := fun x y => modValue modulo [x, y]) (o := .value) (argValue_follows k₁ h₁)
      (argValue_follows k₂ h₂) ?_ ?_
  · convert hfollows using 1
    · simp only [mapM_cons, mapM_nil, bind_assoc, pure_bind]
    · simp only [map_cons, map_nil]
      split_ifs with ho
      · exact ho
      · rfl
  · rintro a' b' ⟨hk₁, ha'⟩ ⟨hk₂, hb'⟩
    obtain ⟨rfl, rfl⟩ := hpos hk₁ hk₂
    subst ha' hb'
    obtain ⟨v, hv, hw⟩ := modValue_spec h
    exact follows_value hv hw
  · rintro x y (rfl | rfl)
    · rcases y with _ | (_ | _ | _) <;> rfl
    · rcases x with _ | (_ | _ | _) <;> rfl

/-! ## `INT` -/

/-- The number `INT` takes from a scalar is Fortran's. -/
theorem pyInt_of_intFortran {a : Scalar P}
    (h : intFortran k a.value = some w) :
    ∃ n, a.pyInt = .ok n ∧ Value.ofInt? k n = some w ∧
      Value.truncated (some a.value) = n := by
  rcases a with ⟨t, b⟩ | ⟨t, x⟩ | c
  · exact ⟨b.toInt, rfl, h, rfl⟩
  · obtain ⟨n, hn, hw⟩ := Option.bind_eq_some_iff.mp h
    refine ⟨n, ?_, hw, ?_⟩
    · rw [Scalar.pyInt, hn]
      rfl
    · simp only [Value.truncated, Scalar.value_real, hn, Option.getD_some]
  · cases h

/-- An integer the kind represents is read unless numpy lacks the kind. -/
theorem npIntOutcome_of_fits {n : ℤ} (hf : Fits (8 * k) n) :
    npIntOutcome n (some (k : ℤ)) =
      if (NpInt.ofBytes? (k : ℤ)).isNone then .raises else .value := by
  rcases ht : NpInt.ofBytes? (k : ℤ) with _ | t
  · simp only [npIntOutcome, ht, Option.isNone_none, if_true]
  · have hkt : k = t.countBytes := by
      have hk := NpInt.toNat_of_ofBytes? ht
      rwa [Int.toNat_natCast] at hk
    rw [hkt] at hf
    simp only [npIntOutcome, ht, if_pos hf]
    rfl

/-- `INT` of two scalars. -/
theorem intValue_follows {a b : Scalar P}
    (hb : b.value.kindNumber = some k) (h : intFortran k a.value = some w) :
    Follows (intValue (some b) (some a)) (intOutcome (some a.value) (some b.value))
      (fun v => v.value = w) := by
  obtain ⟨n, hn, hw, hnum⟩ := pyInt_of_intFortran h
  obtain ⟨hkn, hpos⟩ := number_of_kindNumber hb
  have hbk : b.pyInt = .ok k := by
    rcases b with ⟨t, c⟩ | ⟨t, x⟩ | c
    · exact congrArg Except.ok hkn
    · cases hb
    · cases hb
  have hr : intValue (some b) (some a) =
      if n < 0 ∨ (k : ℤ) < 0 then .error .noMatchError
      else do return some (← npInt n k) := by
    simp only [intValue, hn, hbk, bind, Except.bind]
  rw [hr, intOutcome, hnum, hkn]
  by_cases hneg : n < 0
  · rw [if_pos (Or.inl hneg), if_pos (Or.inl hneg)]
    exact follows_raises rfl
  · rw [if_neg (by omega)]
    unfold Value.ofInt? at hw
    split_ifs at hw with hf
    obtain rfl := Option.some.inj hw
    have hnp := npInt_follows (P := P) n k
    rw [npIntOutcome_of_fits hf, Int.toNat_natCast] at hnp
    simpa [hneg] using hnp

/-- The default kind of `INT`. -/
theorem default_kindNumber :
    (Scalar.ofInt .int32 4 : Scalar P).value = .int 4 4 := by
  apply Scalar.value_ofInt
  decide

/-- **`INT`** follows its outcome. -/
theorem int_follows
    (hargs : ArgsFollow rs os ws)
    (hf : intrinsicFortran .int ws = some w) :
    Follows (intrinsicValue .int rs)
      (intrinsicOutcome .int (ws.map fun q => (q.1, some q.2)) os) (fun v => v.value = w) := by
  obtain ⟨assoc, hassoc, hf⟩ := Option.bind_eq_some_iff.mp hf
  obtain ⟨k, hk, hf⟩ := Option.bind_eq_some_iff.mp hf
  obtain ⟨a, ha, h⟩ := Option.bind_eq_some_iff.mp hf
  clear hf
  rcases hkind : actual "KIND" assoc with _ | b
  · -- no kind is asked for
    rw [hkind] at hk
    obtain rfl := Option.some.inj hk
    obtain ⟨keyword, rfl⟩ := associate_first hassoc ha hkind
    rcases hargs with _ | ⟨h₁, _ | _⟩
    refine bind_follows (f := intValue (some (.ofInt .int32 4)))
      (argValue_follows keyword h₁) ?_ rfl
    rintro a' ⟨-, rfl⟩
    have hd := default_kindNumber (P := P)
    have hi := intValue_follows (a := a') (b := .ofInt .int32 4) (by rw [hd]; rfl) h
    rw [hd] at hi
    exact hi
  · rw [hkind] at hk
    obtain ⟨k₁, k₂, v₁, v₂, rfl, hpos⟩ := associate_two (by decide) hassoc ha hkind
    rcases hargs with _ | ⟨h₁, _ | ⟨h₂, _ | _⟩⟩
    refine bind₂_follows (f := intValue) (argValue_follows k₂ h₂)
      (argValue_follows k₁ h₁) ?_ ?_
    · rintro b' a' ⟨hk₂, rfl⟩ ⟨hk₁, rfl⟩
      obtain ⟨rfl, rfl⟩ := hpos hk₁ hk₂
      exact intValue_follows hk h
    · rintro x y (rfl | rfl)
      · rcases y with _ | _ <;> rfl
      · rfl

end ConstEval
