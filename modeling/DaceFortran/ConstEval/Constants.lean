/-
# Literals and named constants

What `_eval_int_literal`, `_eval_real_literal` and `val_2_np_lit` make of a
number, against the value Fortran gives the literal or the constant, and the
literal `const_eval_nodes` writes for a scalar read back.
-/
import DaceFortran.ConstEval.Operators

open TwosComplement

namespace ConstEval

variable {P : Processor}

/-! ## Unary operators -/

variable {w : Value P} {v : Scalar P}

/-- **Unary operators** agree. -/
theorem unaryValue_spec {op : UnaryOp} {a : Scalar P}
    (h : unaryFortran op a.value = some w) :
    ∃ v, unaryValue op a = .ok v ∧ v.value = w := by
  rcases op with _ | _ | _ <;> rcases a with ⟨t, v⟩ | ⟨t, x⟩ | c
  case minus.int =>
    refine ⟨_, rfl, ?_⟩
    unfold unaryFortran Value.ofInt? at h
    rw [Scalar.value_int] at h
    simp only at h
    split_ifs at h with hf
    rw [Scalar.value_ofInt hf]
    exact Option.some.inj h
  case minus.real => exact ⟨_, rfl, Option.some.inj h⟩
  case not.bool => exact ⟨_, rfl, Option.some.inj h⟩
  all_goals cases h

/-! ## Literals -/

/-- The kind of a numpy integer type found by its bytes. -/
theorem NpInt.toNat_of_ofBytes? {k : ℤ} {t : NpInt} (h : NpInt.ofBytes? k = some t) :
    k.toNat = t.countBytes := by
  rw [NpInt.ofBytes?_eq_some h, Int.toNat_natCast]

/-- The kind of a numpy floating type found by its bytes. -/
theorem NpReal.toNat_of_ofBytes? {k : ℤ} {t : NpReal} (h : NpReal.ofBytes? k = some t) :
    k.toNat = t.countBytes := by
  rw [NpReal.ofBytes?_eq_some h, Int.toNat_natCast]

/-- An integer read at a kind has that kind. -/
theorem npInt_follows (num k : ℤ) :
    Follows (do return some (← npInt num k) : Result P) (npIntOutcome num (some k))
      (fun v => v.value = .int k.toNat num) := by
  rcases hk : NpInt.ofBytes? k with _ | t
  · have hr : (npInt num k : Except Raised (Scalar P)) = .error .assertionError := by
      simp only [npInt, hk]
    simp only [npIntOutcome, hk]
    exact follows_return_raises hr
  · by_cases hf : Fits (8 * t.countBytes) num
    · have hr : (npInt num k : Except Raised (Scalar P)) = .ok (.ofInt t num) := by
        simp only [npInt, hk, if_pos hf]
      simp only [npIntOutcome, hk, if_pos hf]
      refine follows_return hr ?_
      rw [Scalar.value_ofInt hf, NpInt.toNat_of_ofBytes? hk]
    · have hr : (npInt num k : Except Raised (Scalar P)) = .error .overflowError := by
        simp only [npInt, hk, if_neg hf]
      simp only [npIntOutcome, hk, if_neg hf]
      exact follows_return_raises hr

/-- A real read at a kind has that kind. -/
theorem npReal_follows (num : Decimal) {letter : ExponentLetter} (hl : letter ≠ .d) (k : ℤ) :
    Follows (npReal num letter k : Result P) (npRealOutcome k)
      (fun v => v.value = .real k.toNat (P.read k.toNat num)) := by
  unfold npReal npRealOutcome
  rcases hk : NpReal.ofBytes? k with _ | t
  · exact follows_none rfl
  · simp only [if_neg hl]
    refine follows_value rfl ?_
    rw [Scalar.value_real, NpReal.toNat_of_ofBytes? hk]

variable {n : ℕ} {r : Result P} {o : Outcome} {typ : TypeName}

/-- The kind a numeric value names, as the evaluator reads it. -/
theorem number_of_kindNumber (h : w.kindNumber = some n) :
    Value.number (some w) = n ∧ 0 < n := by
  rcases w with ⟨k, m⟩ | ⟨k, x⟩ | ⟨k, b⟩
  · unfold Value.kindNumber at h
    simp only at h
    split_ifs at h with hm
    obtain rfl := Option.some.inj h
    exact ⟨(Int.toNat_of_nonneg hm.le).symm, by omega⟩
  · cases h
  · cases h

/-- The kind of a literal, when it is a default integer. -/
theorem int32Kind_eq (hv : v.value = w) :
    int32Kind (some v) = Value.int4? (some w) := by
  subst hv
  rcases v with ⟨t, b⟩ | ⟨t, x⟩ | c
  · cases t <;> rfl
  · rfl
  · rfl

/-- A default integer's number. -/
theorem int4?_eq_some {n : ℤ} (h : Value.int4? (some w) = some n) :
    Value.number (some w) = n := by
  unfold Value.int4? at h
  split at h
  case h_1 he =>
    obtain rfl := Option.some.inj he
    exact Option.some.inj h
  · cases h

/-! ## Conversion to the type of a constant -/

/-- The kind selector of a declaration, as the evaluator reads it. -/
theorem kindOr4_eq (h : v.value.kindNumber = some n) :
    kindOr4 (some v) = .ok n := by
  obtain ⟨hn, hpos⟩ := number_of_kindNumber h
  rcases v with ⟨t, b⟩ | ⟨t, x⟩ | c
  · have hb : b.toInt = n := hn
    have hne : b.toInt ≠ 0 := by omega
    simp [kindOr4, Scalar.truthy, Scalar.pyInt, hb]
    omega
  · cases h
  · cases h

variable {k : ℕ} {d : Entity} {kind init : Expr}

/-- **An INTEGER constant** keeps its number; its kind is the one it is read at. -/
theorem val2NpLit_integer (k' : ℤ)
    (h : v.value.convertTo (.int k) = some w) :
    Follows (do return some (← val2NpLit v (.integer k')))
      (convertOutcome (.integer k') v.value) (fun u => u.value = w ↔ k'.toNat = k) := by
  rcases hk : NpInt.ofBytes? k' with _ | t
  · -- a kind numpy has no type for
    have ho : convertOutcome (.integer k') v.value = .raises := by
      rcases v with ⟨s, b⟩ | ⟨s, x⟩ | c
      · simp only [convertOutcome, Scalar.value_int, hk]
      · rfl
      · rfl
    rw [ho]
    exact follows_return_raises (by simp only [val2NpLit, hk]; rfl)
  · rcases v with ⟨s, b⟩ | ⟨s, x⟩ | c
    · have hw : w = .int k b.toInt := by
        unfold Scalar.value Value.convertTo Value.ofInt? at h
        simp only at h
        split_ifs at h
        exact (Option.some.inj h).symm
      by_cases hf : Fits (8 * t.countBytes) b.toInt
      · simp only [convertOutcome, Scalar.value_int, hk, if_pos hf]
        refine follows_return (v := .ofInt t b.toInt)
          (by simp only [val2NpLit, hk, if_pos hf]) ?_
        rw [Scalar.value_ofInt hf, hw, NpInt.toNat_of_ofBytes? hk]
        constructor
        · intro he
          injection he
        · intro he
          rw [he]
      · simp only [convertOutcome, Scalar.value_int, hk, if_neg hf]
        exact follows_return_raises (by simp only [val2NpLit, hk, if_neg hf]; rfl)
    · exact follows_return_raises (by simp only [val2NpLit, hk]; rfl)
    · cases h

/-- Two reals agree when their kinds do, and then their numbers. -/
theorem real_value_iff {k k' : ℕ} (f : (k : ℕ) → P.R k) (y : P.R k) :
    ((Value.real k' (f k') : Value P) = .real k y) ↔ k' = k ∧ ¬f k ≠ y := by
  rw [not_not]
  constructor
  · intro h
    injection h with hk hx
    subst hk
    exact ⟨rfl, eq_of_heq hx⟩
  · rintro ⟨rfl, rfl⟩
    rfl

/-- **A REAL constant** is its initial value, unless it is read at another kind or its text
differs. -/
theorem val2NpLit_real (k' : ℤ)
    (h : v.value.convertTo (.real k) = some w) :
    Follows (do return some (← val2NpLit v (.real k')))
      (convertOutcome (.real k') v.value)
      (fun u => u.value = w ↔ k'.toNat = k ∧ ¬TextDiffers k v.value) := by
  rcases hk : NpReal.ofBytes? k' with _ | t
  · have ho : convertOutcome (.real k') v.value = .raises := by
      rcases v with ⟨s, b⟩ | ⟨s, x⟩ | c
      · simp [convertOutcome, hk]
      · simp [convertOutcome, hk]
      · rfl
    rw [ho]
    exact follows_return_raises (by simp only [val2NpLit, hk]; rfl)
  · rcases v with ⟨s, b⟩ | ⟨s, x⟩ | c
    · obtain rfl := Option.some.inj h
      have ho : convertOutcome (.real k') (Scalar.int s b : Scalar P).value = .value := by
        simp [convertOutcome, hk]
      rw [ho]
      refine follows_return (by simp only [val2NpLit, hk]; rfl) ?_
      rw [NpReal.toNat_of_ofBytes? hk]
      exact real_value_iff (fun k => P.read k (.ofInt b.toInt)) _
    · obtain rfl := Option.some.inj h
      have ho : convertOutcome (.real k') (Scalar.real s x).value = .value := by
        simp [convertOutcome, hk]
      rw [ho]
      refine follows_return (by simp only [val2NpLit, hk]; rfl) ?_
      rw [NpReal.toNat_of_ofBytes? hk]
      exact real_value_iff (fun k => reread k x) _
    · cases h

/-- **A LOGICAL constant** without a kind is its initial value; one with a kind is refused. -/
theorem val2NpLit_logical (k? : Option ℤ)
    (hk : k? = none → k = 4) (h : v.value.convertTo (.logical k) = some w) :
    Follows (do return some (← val2NpLit v (.logical k?)))
      (convertOutcome (.logical k?) v.value) (fun u => u.value = w) := by
  rcases v with ⟨s, b⟩ | ⟨s, x⟩ | c
  · cases h
  · cases h
  · obtain rfl := Option.some.inj h
    rcases k? with _ | k'
    · rw [hk rfl]
      exact follows_return rfl rfl
    · exact follows_return_raises rfl

/-! ## Named constants -/

/-- How the type of a declaration and the evaluator's reading of it relate: the kind `k'` the
evaluator takes is the declared `k`, or the default where the selector does not fold. -/
theorem declaredSpec_follows (typ : TypeName)
    (hr : Follows r o fun v => v.value = w) (hn : w.kindNumber = some n) :
    match specOutcome typ (some (some w, o)) with
    | none => ∃ x, declaredSpec typ (some r) = .error x
    | some spec => declaredSpec typ (some r) = .ok spec ∧
        ∃ k' : ℤ, spec = typeWithKind k' typ ∧
          (k'.toNat = n ↔ ¬(o ≠ .value ∧ Value.number (some w) ≠ 4)) := by
  obtain ⟨hnum, hpos⟩ := number_of_kindNumber hn
  cases o with
  | value =>
    obtain ⟨v, rfl, rfl⟩ := hr
    refine ⟨?_, n, ?_, ?_⟩
    · rw [declaredSpec, hnum]
      simp only [bind, Except.bind, kindOr4_eq hn]
      rfl
    · rw [hnum]
    · simp
  | none =>
    rw [show r = .ok none from hr]
    refine ⟨rfl, 4, rfl, ?_⟩
    rw [hnum]
    simp
    omega
  | raises =>
    obtain ⟨x, rfl⟩ := hr
    exact ⟨x, rfl⟩

/-- The initializer of a named constant, converted to the type the evaluator takes. -/
theorem constantValue_follows {tolerate : Bool} {spec : TypeSpec}
    {good : Scalar P → Prop}
    (hr : Follows r o fun v => v.value = w)
    (hconv : d.parameter → d.array = false → ∀ v : Scalar P, v.value = w →
      Follows (do return some (← val2NpLit v spec)) (convertOutcome spec v.value) good) :
    Follows (constantValue tolerate d spec (some r))
      (constantOutcome tolerate d spec (some (some w, o))) good := by
  unfold constantValue constantOutcome
  by_cases hd : !d.parameter || d.array
  · simp only [if_pos hd]
    exact follows_none rfl
  · simp only [if_neg hd]
    have hd' : d.parameter = true ∧ d.array = false := by
      simpa using hd
    cases o with
    | value =>
      obtain ⟨v, rfl, rfl⟩ := hr
      exact hconv hd'.1 hd'.2 v rfl
    | none =>
      rw [show r = .ok none from hr]
      cases tolerate
      · exact follows_raises rfl
      · exact follows_none rfl
    | raises =>
      obtain ⟨x, rfl⟩ := hr
      exact follows_raises rfl

/-- An optional child that is missing. -/
theorem Expr.ifPresent_neg {α : Type} {e : Expr} (he : ¬e.isPresent) (x : α) :
    e.ifPresent x = none := if_neg he

/-- An optional child that is there. -/
theorem Expr.ifPresent_pos {α : Type} {e : Expr} (he : e.isPresent) (x : α) :
    e.ifPresent x = some x := if_pos he

/-- A conversion to the declared type, the evaluator having taken the kind `k'` for `k`. -/
theorem val2NpLit_follows {t : FType}
    (k' : ℤ) (ht : declaredType typ (some k) = some t) (h : v.value.convertTo t = some w) :
    Follows (do return some (← val2NpLit v (typeWithKind k' typ)))
      (convertOutcome (typeWithKind k' typ) v.value)
      (fun u => u.value = w ↔
        k'.toNat = k ∧ ¬((typ = .real ∨ typ = .doublePrecision) ∧ TextDiffers k v.value)) := by
  cases typ with
  | integer =>
    obtain rfl := Option.some.inj ht
    simpa [typeWithKind] using val2NpLit_integer k' h
  | real =>
    obtain rfl := Option.some.inj ht
    simpa [typeWithKind] using val2NpLit_real k' h
  | logical =>
    -- numpy has no kinds of LOGICAL: `val_2_np_lit` refuses them
    obtain rfl := Option.some.inj ht
    have ho : convertOutcome (typeWithKind k' .logical) v.value = .raises := by
      rcases v with ⟨s, b⟩ | ⟨s, x⟩ | c <;> rfl
    rw [ho]
    exact follows_return_raises rfl
  | doublePrecision => cases ht
  | other => cases ht

/-- The same without a kind selector. -/
theorem val2NpLit_follows_default {t : FType}
    (ht : declaredType typ none = some t) (h : v.value.convertTo t = some w) :
    Follows (do return some (← val2NpLit v (typeWithoutKind typ)))
      (convertOutcome (typeWithoutKind typ) v.value)
      (fun u => u.value = w ↔
        ¬((typ = .real ∨ typ = .doublePrecision) ∧
          TextDiffers (if typ = .doublePrecision then 8 else 4) v.value)) := by
  cases typ with
  | integer =>
    obtain rfl := Option.some.inj ht
    simpa [typeWithoutKind] using val2NpLit_integer 4 h
  | real =>
    obtain rfl := Option.some.inj ht
    simpa [typeWithoutKind] using val2NpLit_real 4 h
  | logical =>
    obtain rfl := Option.some.inj ht
    simpa [typeWithoutKind] using val2NpLit_logical none (fun _ => rfl) h
  | doublePrecision =>
    obtain rfl := Option.some.inj ht
    simpa [typeWithoutKind] using val2NpLit_real 8 h
  | other => cases ht

variable {ρ : Env P} {tolerate : Bool}

/-- What Fortran needs of a declaration before it looks at the initializer. -/
theorem fortran_entity
    (h : fortran ρ (.entity d kind init) = some w) :
    ∃ k, declaredKind (kind.ifPresent (fortran ρ kind)) = some k ∧
      (d.parameter → d.array = false →
        ∃ t wi, declaredType d.typ k = some t ∧ fortran ρ init = some wi ∧
          wi.convertTo t = some w) := by
  simp only [fortran] at h
  obtain ⟨k, hk, h⟩ := Option.bind_eq_some_iff.mp h
  refine ⟨k, hk, ?_⟩
  intro hp ha
  simp only [hp, ha, Bool.not_true, Bool.false_eq_true, if_false] at h
  obtain ⟨t, ht, h⟩ := Option.bind_eq_some_iff.mp h
  obtain ⟨wi, hwi, h⟩ := Option.bind_eq_some_iff.mp h
  exact ⟨t, wi, ht, hwi, h⟩

/-- The mismatches of a named constant whose initial value is `wi`. -/
theorem mismatch_entity {wi : Value P}
    (hi : fortran ρ init = some wi) :
    Mismatch ρ tolerate (.entity d kind init) ↔
      (kind.isPresent ∧ outcome ρ tolerate kind ≠ .value ∧
        Value.number (fortran ρ kind) ≠ 4) ∨
      ((d.typ = .real ∨ d.typ = .doublePrecision) ∧
        TextDiffers (realKindOf ρ d kind) wi) := by
  simp only [Mismatch, hi, Option.some.injEq, exists_eq_left']

/-- What the evaluator makes of a declaration: it is aborted, or it takes a spec with which
every initial value is converted up to the mismatches. -/
theorem declaration_follows (d : Entity) {kind : Expr} (init : Expr) {k : Option ℕ} (w : Value P)
    (hkind : ∀ wk, fortran ρ kind = some wk →
      Follows (constEval P tolerate kind) (outcome ρ tolerate kind) fun v => v.value = wk)
    (hk : declaredKind (kind.ifPresent (fortran ρ kind)) = some k) :
    match specOutcome d.typ (kind.ifPresent (fortran ρ kind, outcome ρ tolerate kind)) with
    | none => ∃ x, declaredSpec d.typ (kind.ifPresent (constEval P tolerate kind)) = .error x
    | some spec =>
      declaredSpec d.typ (kind.ifPresent (constEval P tolerate kind)) = .ok spec ∧
      ∀ t (v : Scalar P), declaredType d.typ k = some t → fortran ρ init = some v.value →
        v.value.convertTo t = some w →
        Follows (do return some (← val2NpLit v spec)) (convertOutcome spec v.value)
          (fun u => u.value = w ↔ ¬Mismatch ρ tolerate (.entity d kind init)) := by
  by_cases hp : kind.isPresent
  · rw [Expr.ifPresent_pos hp, Expr.ifPresent_pos hp]
    rw [Expr.ifPresent_pos hp] at hk
    obtain ⟨wk, hwk, hmap⟩ := Option.bind_eq_some_iff.mp hk
    obtain ⟨n, hn, rfl⟩ := Option.map_eq_some_iff.mp hmap
    have hspec := declaredSpec_follows d.typ (hkind wk hwk) hn
    rw [hwk]
    revert hspec
    rcases specOutcome d.typ (some (some wk, outcome ρ tolerate kind)) with _ | spec
    · exact id
    · rintro ⟨hok, k', rfl, hiff⟩
      refine ⟨hok, ?_⟩
      intro t v ht hi hconv
      have hreal : realKindOf ρ d kind = n := by
        rw [realKindOf, if_pos hp, hwk, (number_of_kindNumber hn).1, Int.toNat_natCast]
      have hm := val2NpLit_follows k' ht hconv
      rw [mismatch_entity hi, hreal, hwk]
      simp only [hp, true_and]
      convert hm using 3
      rw [hiff, not_or]
  · rw [Expr.ifPresent_neg hp, Expr.ifPresent_neg hp]
    rw [Expr.ifPresent_neg hp] at hk
    obtain rfl := Option.some.inj hk
    refine ⟨rfl, ?_⟩
    intro t v ht hi hconv
    have hm := val2NpLit_follows_default ht hconv
    rw [mismatch_entity hi, realKindOf, if_neg hp]
    simpa [hp] using hm

/-- **A name** follows its outcome when its kind selector and its initializer do. -/
theorem entity_follows
    (hkind : ∀ wk, fortran ρ kind = some wk →
      Follows (constEval P tolerate kind) (outcome ρ tolerate kind) fun v => v.value = wk)
    (hinit : ∀ wi, fortran ρ init = some wi →
      Follows (constEval P tolerate init) (outcome ρ tolerate init) fun v => v.value = wi)
    (h : fortran ρ (.entity d kind init) = some w) :
    Follows (constEval P tolerate (.entity d kind init))
      (outcome ρ tolerate (.entity d kind init))
      (fun v => v.value = w ↔ ¬Mismatch ρ tolerate (.entity d kind init)) := by
  obtain ⟨k, hk, hrest⟩ := fortran_entity h
  have hdecl := declaration_follows d init w hkind hk
  rw [constEval, outcome]
  revert hdecl
  rcases specOutcome d.typ (kind.ifPresent (fortran ρ kind, outcome ρ tolerate kind)) with
    _ | spec
  · rintro ⟨x, hx⟩
    rw [hx]
    exact follows_raises rfl
  · rintro ⟨hok, hconv⟩
    rw [hok]
    show Follows (constantValue tolerate d spec _) (constantOutcome tolerate d spec _) _
    by_cases hd : !d.parameter || d.array
    · have hv : ∀ r, constantValue (P := P) tolerate d spec r = .ok none := by
        intro r
        simp only [constantValue, if_pos hd]
      have ho : ∀ q, constantOutcome (P := P) tolerate d spec q = .none := by
        intro q
        rcases q with _ | ⟨v, o⟩
        · rfl
        · simp only [constantOutcome, if_pos hd]
      rw [hv, ho]
      exact follows_none rfl
    · have hd' : d.parameter = true ∧ d.array = false := by
        simpa using hd
      by_cases hip : init.isPresent
      · rw [Expr.ifPresent_pos hip, Expr.ifPresent_pos hip]
        obtain ⟨t, wi, ht, hwi, hw⟩ := hrest hd'.1 hd'.2
        rw [hwi]
        refine constantValue_follows (hinit wi hwi) ?_
        rintro - - v rfl
        exact hconv t v ht hwi hw
      · rw [Expr.ifPresent_neg hip, Expr.ifPresent_neg hip]
        refine follows_none ?_
        simp only [constantValue, ite_self]

end ConstEval
