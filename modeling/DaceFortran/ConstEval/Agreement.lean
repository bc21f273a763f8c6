/-
# When the evaluator agrees with Fortran

The evaluator, node by node: where the operands follow their outcomes with their
Fortran values, so does the node, up to its own mismatch (`node_follows`).  By
induction over the expression every subexpression agrees exactly when none is a
defect (**`agrees_iff_no_defect`**).
-/
import DaceFortran.ConstEval.KindInquiry

open TwosComplement List Option

namespace ConstEval

variable {P : Processor} {ρ : Env P} {tolerate : Bool}

/-! ## Subexpressions -/

/-- An expression is the first of its subexpressions. -/
theorem subs_eq_cons (e : Expr) : subs e = e :: (subs e).tail := by
  cases e <;> rfl

theorem mem_subs_self (e : Expr) : e ∈ subs e := by
  rw [subs_eq_cons e]
  exact mem_cons_self ..

section Induction

variable {Q : Expr → Prop} {L : List Expr}

/-- A node on top of subexpressions that satisfy `Q`. -/
theorem forall_subs_cons (step : ∀ e ∈ L, (∀ e' ∈ (subs e).tail, Q e') → Q e) {e : Expr}
    (hL : subs e ⊆ L) (h : ∀ e' ∈ (subs e).tail, Q e') : ∀ e' ∈ subs e, Q e' := by
  have he : Q e := step e (hL (mem_subs_self e)) h
  rw [subs_eq_cons e]
  exact forall_mem_cons.mpr ⟨he, h⟩

/-- The same on two lists of them. -/
theorem forall_append {l r : List Expr} (hl : ∀ e' ∈ l, Q e') (hr : ∀ e' ∈ r, Q e') :
    ∀ e' ∈ l ++ r, Q e' := by
  intro e' he'
  rcases mem_append.mp he' with he' | he'
  · exact hl e' he'
  · exact hr e' he'

mutual

theorem subs_forall (step : ∀ e ∈ L, (∀ e' ∈ (subs e).tail, Q e') → Q e) :
    (e : Expr) → subs e ⊆ L → ∀ e' ∈ subs e, Q e'
  | .absent, hL => forall_subs_cons step hL (by simp [subs])
  | .null, hL => forall_subs_cons step hL (by simp [subs])
  | .external _, hL => forall_subs_cons step hL (by simp [subs])
  | .hex _, hL => forall_subs_cons step hL (by simp [subs])
  | .entity _ kind init, hL => by
    have hL' := append_subset.mp (cons_subset.mp hL).2
    apply forall_subs_cons step hL
    exact forall_append (subs_forall step kind hL'.1) (subs_forall step init hL'.2)
  | .ref _ a, hL => forall_subs_cons step hL (argSubs_forall step a (cons_subset.mp hL).2)
  | .intLiteral _ k, hL =>
    forall_subs_cons step hL (kindSubs_forall step k (cons_subset.mp hL).2)
  | .realLiteral _ _ k, hL =>
    forall_subs_cons step hL (kindSubs_forall step k (cons_subset.mp hL).2)
  | .logicalLiteral _ k, hL =>
    forall_subs_cons step hL (kindSubs_forall step k (cons_subset.mp hL).2)
  | .binary _ l r, hL => by
    have hL' := append_subset.mp (cons_subset.mp hL).2
    apply forall_subs_cons step hL
    exact forall_append (subs_forall step l hL'.1) (subs_forall step r hL'.2)
  | .unary _ e, hL => forall_subs_cons step hL (subs_forall step e (cons_subset.mp hL).2)
  | .paren e, hL => forall_subs_cons step hL (subs_forall step e (cons_subset.mp hL).2)
  | .intrinsic _ a, hL =>
    forall_subs_cons step hL (argSubs_forall step a (cons_subset.mp hL).2)

theorem kindSubs_forall (step : ∀ e ∈ L, (∀ e' ∈ (subs e).tail, Q e') → Q e) :
    (k : KindParam) → kindSubs k ⊆ L → ∀ e' ∈ kindSubs k, Q e'
  | .default, _ => by simp [kindSubs]
  | .digits _, _ => by simp [kindSubs]
  | .named _ e, hL => subs_forall step e hL
  | .node e, hL => subs_forall step e hL

theorem argSubs_forall (step : ∀ e ∈ L, (∀ e' ∈ (subs e).tail, Q e') → Q e) :
    (a : Args) → argSubs a ⊆ L → ∀ e' ∈ argSubs a, Q e'
  | .nil, _ => by simp [argSubs]
  | .cons _ e rest, hL => by
    have hL' := append_subset.mp hL
    exact forall_append (subs_forall step e hL'.1) (argSubs_forall step rest hL'.2)

end

end Induction

variable {e₀ l r : Expr} {kind : KindParam} {num : Decimal} {letter : ExponentLetter}
  {op : BinaryOp} {v : Scalar P}

/-- **Induction over subexpressions**: what each inherits from its proper subexpressions
holds of all of them. -/
theorem subs_induction {Q : Expr → Prop}
    (step : ∀ e ∈ subs e₀, (∀ e' ∈ (subs e).tail, Q e') → Q e) : ∀ e ∈ subs e₀, Q e :=
  subs_forall step e₀ (List.Subset.refl _)

/-- A subexpression of a subexpression is one. -/
theorem subs_trans {e e' : Expr} (he : e ∈ subs e₀) (he' : e' ∈ subs e) : e' ∈ subs e₀ := by
  have h : ∀ e ∈ subs e₀, subs e ⊆ subs e₀ := by
    apply subs_induction
    intro e he htail
    rw [subs_eq_cons e]
    refine cons_subset.mpr ⟨he, ?_⟩
    intro e' he'
    exact htail e' he' (mem_subs_self e')
  exact h e he he'

/-! ## One node -/

/-- The evaluator follows the outcome of the expression, with its Fortran value. -/
def Sound (ρ : Env P) (tolerate : Bool) (e : Expr) : Prop :=
  ∀ w, fortran ρ e = some w →
    Follows (constEval P tolerate e) (outcome ρ tolerate e) fun v => v.value = w

/-- The expression a kind parameter holds. -/
def KindParam.expr? : KindParam → Option Expr
  | .named _ e => some e
  | .node e => some e
  | _ => none

variable {e : Expr} {w : Value P}

theorem KindParam.expr?_mem {k : KindParam} (h : k.expr? = some e) :
    e ∈ kindSubs k := by
  cases k with
  | default => cases h
  | digits n => cases h
  | named n e' =>
    obtain rfl := Option.some.inj h
    exact mem_subs_self _
  | node e' =>
    obtain rfl := Option.some.inj h
    exact mem_subs_self _

/-- The kind of an integer literal. -/
theorem intLiteralKind_named (name : String) (e : Expr) :
    intLiteralKind P tolerate (.named name e) =
      match isoKind name with
      | some k => .ok k
      | none =>
        (constEval P tolerate e).bind fun v => (int32Kind v).elim (.error .assertionError) .ok := by
  unfold intLiteralKind isoKind
  split_ifs
  · rfl
  · rfl
  · rfl
  · cases e <;> rfl

/-- The kinds hard-wired by name are kinds. -/
theorem isoKind_pos {name : String} {k : ℤ} (h : isoKind name = some k) : 0 ≤ k := by
  unfold isoKind at h
  split_ifs at h <;> (obtain rfl := Option.some.inj h; decide)

/-- Integer literals of two kinds. -/
theorem Value.int_inj_kind {k k' : ℕ} {n : ℤ} :
    (Value.int k n : Value P) = .int k' n ↔ k = k' := by
  constructor
  · intro h
    injection h
  · rintro rfl
    rfl

/-- **An integer literal** follows its outcome. -/
theorem intLiteral_follows {num : ℤ}
    (hkind : ∀ e, kind.expr? = some e → Sound ρ tolerate e)
    (h : fortran ρ (.intLiteral num kind) = some w) :
    Follows (constEval P tolerate (.intLiteral num kind))
      (outcome ρ tolerate (.intLiteral num kind))
      (fun v => v.value = w ↔ ¬Mismatch ρ tolerate (.intLiteral num kind)) := by
  rw [fortran] at h
  obtain ⟨k, hk, h⟩ := bind_eq_some_iff.mp h
  have hw : w = .int k num := by
    unfold Value.ofInt? at h
    split_ifs at h
    exact (Option.some.inj h).symm
  subst hw
  rw [constEval, outcome]
  have key : ∀ k' : ℤ, intLiteralKind P tolerate kind = .ok k' →
      intLiteralKindOf ρ tolerate kind = some k' →
      (k'.toNat = k ↔ ¬Mismatch ρ tolerate (.intLiteral num kind)) →
      Follows (do return some (← npInt num (← intLiteralKind P tolerate kind)) : Result P)
        (npIntOutcome num (intLiteralKindOf ρ tolerate kind))
        (fun v => v.value = .int k num ↔ ¬Mismatch ρ tolerate (.intLiteral num kind)) := by
    intro k' hc ho hiff
    rw [hc, ho, ← hiff]
    refine Follows.imp (npInt_follows num k') ?_
    rintro v hv
    rw [hv]
    exact Value.int_inj_kind
  cases kind with
  | default =>
    obtain rfl := Option.some.inj hk
    exact key 4 rfl rfl (iff_of_true rfl id)
  | digits n =>
    rw [kindParam, ite_none_right_eq_some] at hk
    obtain rfl := Option.some.inj hk.2
    exact key n rfl rfl (iff_of_true (Int.toNat_natCast n) id)
  | node e => exact follows_raises rfl
  | named name e =>
    obtain ⟨we, hwe, hkn⟩ := bind_eq_some_iff.mp hk
    obtain ⟨hnum, hpos⟩ := number_of_kindNumber hkn
    rcases hiso : isoKind name with _ | k'
    · -- the kind is looked up
      have hm : ¬Mismatch ρ tolerate (.intLiteral num (.named name e)) := by
        simp [Mismatch, hiso]
      have hs := hkind e rfl we hwe
      have hcode : intLiteralKind P tolerate (.named name e) = _ := intLiteralKind_named name e
      simp only [hiso] at hcode
      have hof : intLiteralKindOf ρ tolerate (.named name e) =
          if outcome ρ tolerate e = .value then Value.int4? (fortran ρ e) else none := by
        simp only [intLiteralKindOf, hiso]
      revert hs
      rcases ho : outcome ρ tolerate e with _ | _ | _ <;> intro hs
      · obtain ⟨v, hv, hvw⟩ := hs
        rw [hv] at hcode
        change intLiteralKind P tolerate _ =
          (int32Kind (some v)).elim (.error .assertionError) .ok at hcode
        rw [int32Kind_eq hvw] at hcode
        rw [ho, if_pos rfl, hwe] at hof
        rcases hi4 : Value.int4? (some we) with _ | n
        · rw [hi4] at hcode hof
          rw [hcode, hof]
          exact follows_raises rfl
        · rw [hi4] at hcode hof
          refine key n hcode hof (iff_of_true ?_ hm)
          rw [← int4?_eq_some hi4, hnum, Int.toNat_natCast]
      · rw [show constEval P tolerate e = .ok none from hs] at hcode
        rw [ho, if_neg (by decide)] at hof
        rw [hcode, hof]
        exact follows_raises rfl
      · obtain ⟨x, hx⟩ := hs
        rw [hx] at hcode
        rw [ho, if_neg (by decide)] at hof
        rw [hcode, hof]
        exact follows_raises rfl
    · -- the kind is hard-wired
      have hcode : intLiteralKind P tolerate (.named name e) = _ := intLiteralKind_named name e
      simp only [hiso] at hcode
      have hpos' := isoKind_pos hiso
      refine key k' hcode (by simp only [intLiteralKindOf, hiso]) ?_
      simp only [Mismatch, hiso, hwe, hnum, Option.some.injEq, exists_eq_left', not_not]
      omega

/-- A real literal of known kind. -/
theorem npReal_value {k : ℤ} {k' : ℕ}
    (hk : k = k') (h : (if letter = .d then none else some (.real k' (P.read k' num))) = some w) :
    Follows (npReal num letter k : Result P) (npRealOutcome k) (fun v => v.value = w) := by
  rw [ite_none_left_eq_some] at h
  obtain ⟨hl, h⟩ := h
  obtain rfl := Option.some.inj h
  subst hk
  exact npReal_follows num hl k'

/-- **A real literal** follows its outcome. -/
theorem realLiteral_follows
    (hkind : ∀ e, kind.expr? = some e → Sound ρ tolerate e)
    (h : fortran ρ (.realLiteral num letter kind) = some w) :
    Follows (constEval P tolerate (.realLiteral num letter kind))
      (outcome ρ tolerate (.realLiteral num letter kind)) (fun v => v.value = w) := by
  cases kind with
  | default =>
    simp only [constEval, outcome]
    simp only [fortran] at h
    split_ifs at h ⊢ with hl
    · obtain rfl := Option.some.inj h
      exact npReal_follows num (by decide) 8
    · obtain rfl := Option.some.inj h
      exact npReal_follows num hl 4
  | digits n => exact follows_none rfl
  | named name e =>
    obtain ⟨k, hk, h⟩ := bind_eq_some_iff.mp h
    obtain ⟨we, hwe, hkn⟩ := bind_eq_some_iff.mp hk
    have hnum := (number_of_kindNumber hkn).1
    simp only [constEval, realLiteralKind, outcome, realLiteralOutcome, hwe]
    have hs := hkind e rfl we hwe
    revert hs
    rcases outcome ρ tolerate e with _ | _ | _ <;> intro hs
    · obtain ⟨v, hv, hvw⟩ := hs
      rw [hv, if_pos rfl, ← int32Kind_eq hvw]
      simp only [bind, Except.bind, pure, Except.pure]
      rcases hi : int32Kind (some v) with _ | n
      · exact follows_none rfl
      · have hn : n = k := by
          rw [int32Kind_eq hvw] at hi
          rw [← int4?_eq_some hi, hnum]
        exact npReal_value hn h
    · rw [show constEval P tolerate e = .ok none from hs]
      exact follows_none rfl
    · obtain ⟨x, hx⟩ := hs
      rw [hx]
      exact follows_raises rfl
  | node e =>
    obtain ⟨k, hk, h⟩ := bind_eq_some_iff.mp h
    obtain ⟨we, hwe, hkn⟩ := bind_eq_some_iff.mp hk
    have hnum := (number_of_kindNumber hkn).1
    simp only [constEval, realLiteralKind, outcome, realLiteralOutcome, hwe]
    have hs := hkind e rfl we hwe
    revert hs
    rcases outcome ρ tolerate e with _ | _ | _ <;> intro hs
    · obtain ⟨v, hv, hvw⟩ := hs
      subst hvw
      rw [hv, if_pos rfl]
      rcases v with ⟨t, b⟩ | ⟨t, x⟩ | c
      · have hn : b.toInt = k := hnum
        cases t
        · exact follows_none rfl
        · exact follows_none rfl
        · exact npReal_value hn h
        · exact npReal_value hn h
      · exact follows_none rfl
      · exact follows_none rfl
    · rw [show constEval P tolerate e = .ok none from hs]
      exact follows_none rfl
    · obtain ⟨x, hx⟩ := hs
      rw [hx]
      exact follows_raises rfl

/-- **A logical literal** folds; a kind parameter makes it false. -/
theorem logicalLiteral_follows {b : Bool}
    (h : fortran ρ (.logicalLiteral b kind) = some w) :
    Follows (constEval P tolerate (.logicalLiteral b kind))
      (outcome ρ tolerate (.logicalLiteral b kind))
      (fun v => v.value = w ↔ ¬Mismatch ρ tolerate (.logicalLiteral b kind)) := by
  rw [fortran] at h
  obtain ⟨k, hk, h⟩ := bind_eq_some_iff.mp h
  obtain rfl := Option.some.inj h
  have hother : kind ≠ .default →
      ((Scalar.bool false : Scalar P).value = .logical k b ↔
        ¬Mismatch ρ tolerate (.logicalLiteral b kind)) := by
    intro hne
    simp only [Mismatch, hk, Scalar.value_bool, Value.logical.injEq]
    cases b
    · simp [eq_comm]
    · simp [hne]
  cases kind with
  | default =>
    obtain rfl := Option.some.inj hk
    refine follows_value rfl (iff_of_true rfl ?_)
    simp [Mismatch, kindParam]
  | digits n => exact follows_value rfl (hother (by simp))
  | named name e => exact follows_value rfl (hother (by simp))
  | node e => exact follows_value rfl (hother (by simp))

/-- The mismatch of a binary node is that of its operator on the operands' values. -/
theorem mismatch_binary {wl wr : Value P}
    (hl : fortran ρ l = some wl) (hr : fortran ρ r = some wr) :
    Mismatch ρ tolerate (.binary op l r) ↔ BinaryMismatch op wl wr := by
  cases op <;> simp [Mismatch, BinaryMismatch, hl, hr]

/-- **A binary node** follows its outcome. -/
theorem binary_follows (hl : Sound ρ tolerate l)
    (hr : Sound ρ tolerate r) (h : fortran ρ (.binary op l r) = some w) :
    Follows (constEval P tolerate (.binary op l r)) (outcome ρ tolerate (.binary op l r))
      (fun v => v.value = w ↔ ¬Mismatch ρ tolerate (.binary op l r)) := by
  rw [fortran] at h
  obtain ⟨wl, hwl, h⟩ := bind_eq_some_iff.mp h
  obtain ⟨wr, hwr, h⟩ := bind_eq_some_iff.mp h
  have hop : op ≠ .other := by
    rintro rfl
    cases h
  rw [constEval, outcome, if_neg hop, if_neg hop, mismatch_binary hwl hwr, hwl, hwr]
  exact binaryValue_follows (hl wl hwl) (hr wr hwr) h

/-- **A unary node** follows its outcome. -/
theorem unary_follows {op : UnaryOp} (he : Sound ρ tolerate e)
    (h : fortran ρ (.unary op e) = some w) :
    Follows (constEval P tolerate (.unary op e)) (outcome ρ tolerate (.unary op e))
      (fun v => v.value = w) := by
  rw [fortran] at h
  obtain ⟨we, hwe, h⟩ := bind_eq_some_iff.mp h
  have hop : op ≠ .other := by
    rintro rfl
    cases we <;> cases h
  rw [constEval, outcome, if_neg hop, if_neg hop]
  have hs := he we hwe
  revert hs
  rcases outcome ρ tolerate e with _ | _ | _ <;> intro hs
  · obtain ⟨v, hv, rfl⟩ := hs
    obtain ⟨u, hu, huw⟩ := unaryValue_spec h
    rw [hv]
    refine follows_value ?_ huw
    simp only [bind, Except.bind, hu]
    rfl
  · rw [show constEval P tolerate e = .ok none from hs]
    exact follows_none rfl
  · obtain ⟨x, hx⟩ := hs
    rw [hx]
    exact follows_raises rfl

/-- The arguments themselves, without their keywords. -/
def Args.exprs : Args → List Expr
  | .nil => []
  | .cons _ e rest => e :: rest.exprs

theorem Args.exprs_subset : (args : Args) → args.exprs ⊆ argSubs args
  | .nil => List.Subset.refl _
  | .cons _ e rest => by
    intro e' he'
    rcases mem_cons.mp he' with rfl | he'
    · exact mem_append_left _ (mem_subs_self _)
    · exact mem_append_right _ (rest.exprs_subset he')

/-- The arguments of an intrinsic whose values are known. -/
theorem argsFollow_of_sound {ws : List (Option String × Value P)} :
    ∀ {args : Args}, (∀ e ∈ args.exprs, Sound ρ tolerate e) →
      allValues (fortranArgs ρ args) = some ws →
      fortranArgs ρ args = ws.map (fun q => (q.1, some q.2)) ∧
        ArgsFollow (constEvalArgs P tolerate args) (argOutcomes ρ tolerate args) ws := by
  induction ws with
  | nil =>
    rintro (_ | ⟨keyword, e, rest⟩) _ h
    · exact ⟨rfl, .nil⟩
    · exfalso
      rw [fortranArgs] at h
      rcases he : fortran ρ e with _ | v <;> rw [he] at h
      · cases h
      · obtain ⟨_, _, h⟩ := map_eq_some_iff.mp h
        cases h
  | cons q ws ih =>
    rintro (_ | ⟨keyword, e, rest⟩) hsound h
    · cases h
    · rw [fortranArgs] at h ⊢
      rcases he : fortran ρ e with _ | v
      · rw [he] at h
        cases h
      · rw [he] at h
        obtain ⟨ws', hws, h⟩ := map_eq_some_iff.mp h
        injection h with hq hws'
        subst hq hws'
        obtain ⟨hmap, hfollow⟩ := ih
          (fun e' he' => hsound e' (mem_cons_of_mem _ he')) hws
        rw [hmap]
        refine ⟨rfl, .cons ?_ hfollow⟩
        exact hsound e (mem_cons_self ..) v he

/-- **An intrinsic reference** follows its outcome. -/
theorem intrinsic_follows {f : Intrinsic} {args : Args}
    (hargs : ∀ e ∈ args.exprs, Sound ρ tolerate e)
    (h : fortran ρ (.intrinsic f args) = some w) :
    Follows (constEval P tolerate (.intrinsic f args))
      (outcome ρ tolerate (.intrinsic f args))
      (fun v => v.value = w ↔ ¬Mismatch ρ tolerate (.intrinsic f args)) := by
  rw [fortran] at h
  obtain ⟨ws, hws, h⟩ := bind_eq_some_iff.mp h
  obtain ⟨hmap, hfollow⟩ := argsFollow_of_sound hargs hws
  rw [constEval, outcome, hmap]
  have hgood : (∀ v : Scalar P, v.value = w → (v.value = w ↔ ¬False)) := fun v hv =>
    iff_of_true hv id
  cases f with
  | mod =>
    obtain ⟨assoc, hassoc, h⟩ := bind_eq_some_iff.mp h
    obtain ⟨a, ha, h⟩ := bind_eq_some_iff.mp h
    obtain ⟨p, hp, h⟩ := bind_eq_some_iff.mp h
    exact (mod_follows hfollow hassoc ha hp h).imp hgood
  | modulo =>
    obtain ⟨assoc, hassoc, h⟩ := bind_eq_some_iff.mp h
    obtain ⟨a, ha, h⟩ := bind_eq_some_iff.mp h
    obtain ⟨p, hp, h⟩ := bind_eq_some_iff.mp h
    exact (mod_follows hfollow hassoc ha hp h).imp hgood
  | int => exact (int_follows hfollow h).imp hgood
  | selectedRealKind => exact (selectedRealKind_follows hfollow h).imp hgood
  | selectedIntKind =>
    obtain ⟨keyword, v, rfl, hfol⟩ := selectedIntKind_follows hfollow h
    rcases args with _ | ⟨keyword', e, rest⟩
    · cases hmap
    · have hv : fortran ρ e = some v := by
        rw [fortranArgs, map_cons, List.cons.injEq, Prod.mk.injEq] at hmap
        exact hmap.1.2
      simpa only [Mismatch, hv] using hfol
  | epsilon => cases h
  | numpy g => cases h
  | other => cases h

/-- **One node**: over sound subexpressions the evaluator follows its outcome, with the
Fortran value up to the node's own mismatch. -/
theorem node_follows (hsub : ∀ e' ∈ (subs e).tail, Sound ρ tolerate e')
    (h : fortran ρ e = some w) :
    Follows (constEval P tolerate e) (outcome ρ tolerate e)
      (fun v => v.value = w ↔ ¬Mismatch ρ tolerate e) := by
  have hgood : (∀ v : Scalar P, v.value = w → (v.value = w ↔ ¬False)) := fun v hv =>
    iff_of_true hv id
  cases e with
  | absent => cases h
  | null => cases h
  | external n => exact follows_none rfl
  | ref x a => exact follows_none rfl
  | hex n => cases h
  | entity d kind init =>
    exact entity_follows (hsub kind (mem_append_left _ (mem_subs_self kind)))
      (hsub init (mem_append_right _ (mem_subs_self init))) h
  | intLiteral n k => exact intLiteral_follows (fun e he => hsub e (k.expr?_mem he)) h
  | realLiteral n l k =>
    exact (realLiteral_follows (fun e he => hsub e (k.expr?_mem he)) h).imp hgood
  | logicalLiteral b k => exact logicalLiteral_follows h
  | binary op l r =>
    exact binary_follows (hsub l (mem_append_left _ (mem_subs_self l)))
      (hsub r (mem_append_right _ (mem_subs_self r))) h
  | unary op e => exact (unary_follows (hsub e (mem_subs_self e)) h).imp hgood
  | paren e => exact (hsub e (mem_subs_self e) w h).imp hgood
  | intrinsic f a => exact intrinsic_follows (fun e he => hsub e (a.exprs_subset he)) h

/-! ## The written literal -/

/-- The suffix written for an integer type is read as its kind. -/
theorem kindParam_kindSuffix (t : NpInt) :
    kindParam ρ 4 (kindSuffix t.countBytes) = some t.countBytes := by
  cases t <;> rfl

/-- The magnitude written for a negative integer, read with its sign. -/
theorem fortran_negative (t : NpInt) (n : ℤ) :
    fortran ρ (.paren (.unary .minus (.intLiteral (-n) (kindSuffix t.countBytes)))) =
      (Value.ofInt? t.countBytes (-n) : Option (Value P)).bind fun _ =>
        Value.ofInt? t.countBytes n := by
  simp only [fortran, kindParam_kindSuffix]
  show ((Value.ofInt? t.countBytes (-n) : Option (Value P)).bind fun v =>
    unaryFortran .minus v) = _
  by_cases h : Fits (8 * t.countBytes) (-n)
  · rw [Value.ofInt?, if_pos h]
    show Value.ofInt? t.countBytes (- -n) = Value.ofInt? t.countBytes n
    rw [neg_neg]
  · rw [Value.ofInt?, if_neg h]
    rfl

/-- **The literal** written for a scalar has its value, the least integer of a kind apart. -/
theorem fortran_literal {lit : Expr} (h : numpyTypeToLiteral v = .ok lit)
    (hmin : ¬v.value.IsMinimum) : fortran ρ lit = some v.value := by
  rcases v with ⟨t, b⟩ | ⟨t, x⟩ | c
  · simp only [numpyTypeToLiteral] at h
    have hb := fits_toInt b
    split_ifs at h with hneg <;> obtain rfl := Except.ok.inj h
    · have hb' : Fits (8 * t.countBytes) (-b.toInt) := (fits_neg_iff hb).mpr hmin
      rw [fortran_negative, Value.ofInt?, if_pos hb', bind_some, Value.ofInt?, if_pos hb]
      rfl
    · rw [fortran, kindParam_kindSuffix]
      show Value.ofInt? t.countBytes b.toInt = _
      rw [Value.ofInt?, if_pos hb]
      rfl
  · simp only [numpyTypeToLiteral] at h
    rcases hd : P.write x with _ | d <;> rw [hd] at h
    · cases h
    · have hread := P.read_write x d hd
      simp only at h
      split_ifs at h with hneg hzero <;> obtain rfl := Except.ok.inj h
      · have hs := P.read_neg t.countBytes d hneg
        rw [hread] at hs
        cases t
        · exact congrArg (fun y => some (Value.real 4 y)) hs
        · exact congrArg (fun y => some (Value.real 8 y)) hs
      · cases t
        · exact congrArg (fun y => some (Value.real 4 y)) hread
        · exact congrArg (fun y => some (Value.real 8 y)) hread
  · obtain rfl := Except.ok.inj h
    rfl

/-- The least integer of a kind is written with a magnitude that is no literal of the kind. -/
theorem literal_of_minimum (hmin : v.value.IsMinimum) :
    ∃ lit, numpyTypeToLiteral v = .ok lit ∧ fortran ρ lit = none := by
  rcases v with ⟨t, b⟩ | ⟨t, x⟩ | c
  · have hb : b.toInt = -2 ^ (8 * t.countBytes - 1) := hmin
    have hneg : b.toInt < 0 := by
      rw [hb]
      have : (0 : ℤ) < 2 ^ (8 * t.countBytes - 1) := by positivity
      omega
    refine ⟨_, by simp only [numpyTypeToLiteral, if_pos hneg]; rfl, ?_⟩
    have hnot : ¬Fits (8 * t.countBytes) (-b.toInt) := by
      rw [fits_neg_iff (fits_toInt b)]
      exact not_not.mpr hb
    rw [fortran_negative, Value.ofInt?, if_neg hnot]
    rfl
  · cases hmin
  · cases hmin

/-! ## The whole expression -/

/-- A node that is no defect is sound with its subexpressions. -/
theorem sound_of_not_defect (hsub : ∀ e' ∈ (subs e).tail, Sound ρ tolerate e')
    (hd : ¬Defect ρ tolerate e) : Sound ρ tolerate e := by
  intro w hw
  have hf := node_follows hsub hw
  unfold Defect at hd
  revert hd hf
  rcases outcome ρ tolerate e with _ | _ | _
  · rintro hd ⟨v, hv, hiff⟩
    refine ⟨v, hv, hiff.mpr ?_⟩
    intro hm
    exact hd ⟨rfl, w, hw, Or.inl hm⟩
  · exact fun _ h => h
  · exact fun _ h => h

/-- **No defect, no disagreement**: the evaluator is sound on every subexpression. -/
theorem sound_of_no_defect (hd : ∀ e ∈ subs e₀, ¬Defect ρ tolerate e) :
    ∀ e ∈ subs e₀, Sound ρ tolerate e :=
  subs_induction fun e he hsub => sound_of_not_defect hsub (hd e he)

/-- A sound node that is no defect agrees. -/
theorem agrees_of_sound (hs : Sound ρ tolerate e) (hd : ¬Defect ρ tolerate e) :
    Agrees P ρ tolerate e := by
  intro v w hv hw
  have hf := hs w hw
  unfold Defect at hd
  revert hd hf
  rcases outcome ρ tolerate e with _ | _ | _
  · rintro hd ⟨u, hu, huw⟩
    rw [hv] at hu
    obtain rfl := Option.some.inj (Except.ok.inj hu)
    refine ⟨huw, ?_⟩
    intro lit hlit
    rw [← huw]
    apply fortran_literal hlit
    rw [huw]
    intro hmin
    exact hd ⟨rfl, w, hw, Or.inr hmin⟩
  · intro _ hf
    rw [show constEval P tolerate e = .ok none from hf] at hv
    cases hv
  · rintro _ ⟨x, hx⟩
    rw [hx] at hv
    cases hv

/-- **A defect shows**: over sound subexpressions it disagrees. -/
theorem not_agrees_of_defect (hsub : ∀ e' ∈ (subs e).tail, Sound ρ tolerate e')
    (hd : Defect ρ tolerate e) : ¬Agrees P ρ tolerate e := by
  obtain ⟨ho, w, hw, hbad⟩ := hd
  intro ha
  have hf := node_follows hsub hw
  rw [ho] at hf
  obtain ⟨v, hv, hiff⟩ := hf
  obtain ⟨hvw, hlit⟩ := ha v w hv hw
  rcases hbad with hm | hmin
  · exact hiff.mp hvw hm
  · rw [← hvw] at hmin
    obtain ⟨lit, hok, hnone⟩ := literal_of_minimum (ρ := ρ) hmin
    rw [hlit lit hok] at hnone
    cases hnone

/-- **The exact condition**: the evaluator agrees with Fortran on every subexpression exactly
when none of them is a defect. -/
theorem agrees_iff_no_defect (e₀ : Expr) :
    (∀ e ∈ subs e₀, Agrees P ρ tolerate e) ↔ ∀ e ∈ subs e₀, ¬Defect ρ tolerate e := by
  constructor
  · intro ha
    have h : ∀ e ∈ subs e₀, Sound ρ tolerate e ∧ ¬Defect ρ tolerate e := by
      apply subs_induction
      intro e he hsub
      have hs : ∀ e' ∈ (subs e).tail, Sound ρ tolerate e' := fun e' he' => (hsub e' he').1
      have hd : ¬Defect ρ tolerate e := fun hd => not_agrees_of_defect hs hd (ha e he)
      exact ⟨sound_of_not_defect hs hd, hd⟩
    exact fun e he => (h e he).2
  · intro hd e he
    exact agrees_of_sound (sound_of_no_defect hd e he) (hd e he)

end ConstEval
