/-
# `const_eval_basic_type` and `const_eval_nodes` against Fortran

The sweeps keep the invariant of `FoldNodes` at every place of a program, so a
program without defects is replaced place by place by literals of equal type,
kind and value (`constEvalNodes_replaced`); and a defect anywhere shows, in the
evaluator or in the sweep (**`constEvalNodes_agrees_iff`**).
-/
import DaceFortran.ConstEval.FoldNodes

open Fallible

namespace ConstEval

variable {P : Processor} {ρ : Env P} {tolerate : Bool}

/-! ## The sweeps keep the invariant -/

mutual

/-- **The general sweep** keeps the invariant. -/
theorem Folds.foldExpr {e e₁ e₂ : Expr} : Folds ρ tolerate e e₁ → Clean ρ tolerate (subs e) →
    foldExpr P tolerate e₁ = .ok e₂ → Folds ρ tolerate e e₂
  | .absent, _, hf => Folds.absent.of_ok hf
  | .null, _, hf => Folds.null.of_ok hf
  | .external name, _, hf => (Folds.external name).of_ok hf
  | .hex n, _, hf => (Folds.hex n).of_ok hf
  | .entity d kind init, _, hf => (Folds.entity d kind init).of_ok hf
  | .intLiteral num kind, hc, hf => (Folds.intLiteral num kind).foldNode hc hf
  | .realLiteral num letter kind, hc, hf => (Folds.realLiteral num letter kind).foldNode hc hf
  | .logicalLiteral b kind, hc, hf => (Folds.logicalLiteral b kind).foldNode hc hf
  | .literal hvar h, _, hf => by
    obtain rfl := foldExpr_literal h.lit_eq hf
    exact .literal hvar h
  | .suffix h hk, hc, hf => (Folds.suffix h hk).foldNode hc hf
  | .ref h, hc, hf => by
    obtain ⟨a, ha, rfl⟩ := ok_of_map hf
    exact .ref (h.foldArgs hc.tail ha)
  | .binary hl hr, hc, hf => by
    obtain ⟨r, hr', hf⟩ := ok_of_bind hf
    obtain ⟨l, hl', hf⟩ := ok_of_bind hf
    exact (Folds.binary (hl.foldExpr hc.tail.left hl')
      (hr.foldExpr hc.tail.right hr')).foldNode hc hf
  | .unary h, hc, hf => by
    obtain ⟨e, he, rfl⟩ := ok_of_map hf
    exact .unary (h.foldExpr hc.tail he)
  | .paren h, hc, hf => by
    obtain ⟨e, he, rfl⟩ := ok_of_map hf
    exact .paren (h.foldExpr hc.tail he)
  | .intrinsic h, hc, hf => by
    obtain ⟨a, ha, hf⟩ := ok_of_bind hf
    exact (Folds.intrinsic (h.foldArgs hc.tail ha)).foldNode
      hc hf

theorem FoldsArgs.foldArgs {a a₁ a₂ : Args} : FoldsArgs ρ tolerate a a₁ →
    Clean ρ tolerate (argSubs a) → foldArgs P tolerate a₁ = .ok a₂ → FoldsArgs ρ tolerate a a₂
  | .nil, _, hf => by
    obtain rfl := Except.ok.inj hf
    exact .nil
  | .cons h t, hc, hf => by
    obtain ⟨rest, ht, hf⟩ := ok_of_bind hf
    obtain ⟨e, he, rfl⟩ := ok_of_map hf
    exact .cons (h.foldExpr hc.left he)
      (t.foldArgs hc.right ht)

end

mutual

/-- **The sweep over references** keeps the invariant. -/
theorem Folds.foldRefs {e e₁ e₂ : Expr} : Folds ρ tolerate e e₁ → Clean ρ tolerate (subs e) →
    foldRefs P tolerate e₁ = .ok e₂ → Folds ρ tolerate e e₂
  | .absent, _, hf => Folds.absent.of_ok hf
  | .null, _, hf => Folds.null.of_ok hf
  | .external name, _, hf => (Folds.external name).of_ok hf
  | .hex n, _, hf => (Folds.hex n).of_ok hf
  | .entity d kind init, _, hf => (Folds.entity d kind init).of_ok hf
  | .intLiteral num kind, _, hf => (Folds.intLiteral num kind).of_ok hf
  | .realLiteral num letter kind, _, hf => (Folds.realLiteral num letter kind).of_ok hf
  | .logicalLiteral b kind, _, hf => (Folds.logicalLiteral b kind).of_ok hf
  | .literal hvar h, _, hf => by
    rw [(swept_literal h.lit_eq).2] at hf
    obtain rfl := Except.ok.inj hf
    exact .literal hvar h
  | .suffix h hk, _, hf => (Folds.suffix h hk).of_ok hf
  | .ref h, hc, hf => by
    obtain ⟨a, ha, rfl⟩ := ok_of_map hf
    exact .ref (h.foldArgNames hc.tail ha)
  | .binary hl hr, hc, hf => by
    obtain ⟨r, hr', hf⟩ := ok_of_bind hf
    obtain ⟨l, hl', rfl⟩ := ok_of_map hf
    exact .binary (hl.foldRefs hc.tail.left hl') (hr.foldRefs hc.tail.right hr')
  | .unary h, hc, hf => by
    obtain ⟨e, he, rfl⟩ := ok_of_map hf
    exact .unary (h.foldRefs hc.tail he)
  | .paren h, hc, hf => by
    obtain ⟨e, he, rfl⟩ := ok_of_map hf
    exact .paren (h.foldRefs hc.tail he)
  | .intrinsic h, hc, hf => by
    obtain ⟨a, ha, rfl⟩ := ok_of_map hf
    exact .intrinsic (h.foldArgRefs hc.tail ha)

theorem FoldsArgs.foldArgRefs {a a₁ a₂ : Args} : FoldsArgs ρ tolerate a a₁ →
    Clean ρ tolerate (argSubs a) → foldArgRefs P tolerate a₁ = .ok a₂ → FoldsArgs ρ tolerate a a₂
  | .nil, _, hf => by
    obtain rfl := Except.ok.inj hf
    exact .nil
  | .cons h t, hc, hf => by
    obtain ⟨rest, ht, hf⟩ := ok_of_bind hf
    obtain ⟨e, he, rfl⟩ := ok_of_map hf
    exact .cons (h.foldRefs hc.left he)
      (t.foldArgRefs hc.right ht)

end

/-! ## Places and programs -/

/-- A place whose expression is replaced by literals; its context is what it was. -/
structure ReplacedPlace (ρ : Env P) (p p' : Place) : Prop where
  context_eq : p'.context = p.context
  expr : Replaced ρ p.expr p'.expr

variable {c : Context} {e : Expr}

/-- The sweeps that come first. -/
theorem folds_foldBefore {e' : Expr} (hc : Clean ρ tolerate (subs e))
    (hf : foldBefore P tolerate c e = .ok e') : Folds ρ tolerate e e' := by
  cases c with
  | rightHandSide => exact (folds_refl e).foldWhole hc hf
  | caseValue => exact (folds_refl e).foldNode hc hf
  | _ =>
    obtain rfl := Except.ok.inj hf
    exact folds_refl e

/-- The sweeps that come last. -/
theorem Folds.foldAfter {e₁ e₂ : Expr} (h : Folds ρ tolerate e e₁)
    (hc : Clean ρ tolerate (subs e)) (hf : foldAfter P tolerate c e₁ = .ok e₂) :
    Folds ρ tolerate e e₂ := by
  cases c with
  | kindSelector =>
    obtain ⟨e', he', hf⟩ := ok_of_bind hf
    exact (h.foldWhole hc he').foldRefs hc hf
  | nonExpression => exact h.foldNames hc hf
  | _ => exact h.foldRefs hc hf

/-- **All sweeps at a clean place.** -/
theorem foldPlace_replaced {p p' : Place} (hc : Clean ρ tolerate (subs p.expr))
    (hf : foldPlace P tolerate p = .ok p') : ReplacedPlace ρ p p' := by
  obtain ⟨e₁, h₁, hf⟩ := ok_of_bind hf
  obtain ⟨e₂, h₂, hf⟩ := ok_of_bind hf
  obtain ⟨e₃, h₃, rfl⟩ := ok_of_map hf
  have hfolds : Folds ρ tolerate p.expr e₃ :=
    ((folds_foldBefore hc h₁).foldExpr hc h₂).foldAfter hc h₃
  exact ⟨rfl, hfolds.replaced⟩

/-- **All sweeps over a clean program.** -/
theorem constEvalNodes_replaced :
    ∀ {program program' : List Place}, (∀ p ∈ program, Clean ρ tolerate (subs p.expr)) →
      constEvalNodes P tolerate program = .ok program' →
      List.Forall₂ (ReplacedPlace ρ) program program' := by
  intro program
  induction program with
  | nil =>
    intro program' _ hf
    obtain rfl := Except.ok.inj hf
    exact .nil
  | cons p program ih =>
    intro program' hc hf
    unfold constEvalNodes at hf
    rw [List.mapM_cons] at hf
    obtain ⟨p', hp', hf⟩ := ok_of_bind hf
    obtain ⟨rest, hrest, rfl⟩ := ok_of_map hf
    refine .cons (foldPlace_replaced (hc p (List.mem_cons_self ..)) hp') (ih ?_ hrest)
    intro q hq
    exact hc q (List.mem_cons_of_mem _ hq)

/-! ## A bad kind shows -/

/-- A written literal has no name and no node for its kind. -/
theorem numpyTypeToLiteral_ne {v : Scalar P} {num : Decimal} {letter : ExponentLetter} :
    numpyTypeToLiteral v ≠ .ok (.realLiteral num letter (.node e)) := by
  intro h
  rcases v with ⟨t, b⟩ | ⟨t, x⟩ | c
  · simp only [numpyTypeToLiteral] at h
    split_ifs at h <;> cases Except.ok.inj h
  · simp only [numpyTypeToLiteral] at h
    rcases hd : P.write x with _ | d <;> rw [hd] at h
    · cases h
    · simp only at h
      split_ifs at h <;> cases Except.ok.inj h
  · cases Except.ok.inj h

/-- **The kind of a real literal that is no default integer** is turned into something that
cannot be written after the underscore. -/
theorem not_replaced_of_suffixDefect (hs : ∀ e' ∈ (subs e).tail, Sound ρ tolerate e')
    (hd : SuffixDefect ρ tolerate e) :
    ∃ p', foldPlace P tolerate ⟨.other, e⟩ = .ok p' ∧ ¬Replaced ρ e p'.expr := by
  cases e with
  | realLiteral num letter kind =>
    cases kind with
    | named name e =>
      obtain ⟨ho, w, hw, hk, hdigits⟩ := hd
      have hf := hs e (mem_subs_self e) w hw
      rw [ho] at hf
      obtain ⟨v, hv, hvw⟩ := hf
      -- the kind is a positive integer of another kind than 4
      rcases v with ⟨t, b⟩ | ⟨t, x⟩ | c <;> subst hvw
      · have hpos : 0 < b.toInt := by
          by_contra hneg
          simp [Value.kindNumber, hneg] at hk
        have ht : t ≠ .int32 := by
          rintro rfl
          exact hdigits (le_of_lt hpos)
        have hlit : numpyTypeToLiteral (.int t b : Scalar P) =
            .ok (.intLiteral b.toInt (.digits t.countBytes)) := by
          simp only [numpyTypeToLiteral]
          rw [if_neg (by omega)]
          cases t <;> first | rfl | exact absurd rfl ht
        have hnode : constEvalNode P tolerate e =
            .ok (some (.intLiteral b.toInt (.digits t.countBytes))) := by
          unfold constEvalNode
          rw [hv]
          show (do return some (← numpyTypeToLiteral (.int t b))) = _
          rw [hlit]
          rfl
        have hnone : constEvalNode P tolerate (.realLiteral num letter (.named name e)) =
            .ok none := by
          unfold constEvalNode
          have hreal : constEval P tolerate (.realLiteral num letter (.named name e)) =
              .ok none := by
            rw [constEval, realLiteralKind, hv]
            · cases t <;> first | rfl | exact absurd rfl ht
            · intro h
              cases h
          rw [hreal]
          rfl
        refine ⟨⟨.other, .realLiteral num letter
          (.node (.intLiteral b.toInt (.digits t.countBytes)))⟩, ?_, ?_⟩
        · have hfold : foldExpr P tolerate (.realLiteral num letter (.named name e)) =
              .ok (.realLiteral num letter
                (.node (.intLiteral b.toInt (.digits t.countBytes)))) := by
            rw [foldExpr, foldNode, hnone]
            show foldNames P tolerate _ = _
            rw [foldNames, hnode]
            rfl
          unfold foldPlace
          show (foldExpr P tolerate (.realLiteral num letter (.named name e)) >>= _) = _
          rw [hfold]
          rfl
        · intro hr
          cases hr with
          | literal hlit' => exact numpyTypeToLiteral_ne hlit'
          | suffix hdig _ =>
            have := hdig _ hw hk
            simp [Expr.isKindDigits] at this
      · simp [Value.kindNumber] at hk
      · simp [Value.kindNumber] at hk
    | _ => exact hd.elim
  | _ => exact hd.elim

/-! ## The claim of the pass -/

/-- What the evaluator and the pass should do with an expression, wherever it stands. -/
def FoldsAsFortran (ρ : Env P) (tolerate : Bool) (e : Expr) : Prop :=
  Agrees P ρ tolerate e ∧
    ∀ context p', foldPlace P tolerate ⟨context, e⟩ = .ok p' → ReplacedPlace ρ ⟨context, e⟩ p'

/-- No defect of the evaluator and none of the sweep over kinds. -/
def FoldsSafely (ρ : Env P) (tolerate : Bool) (e : Expr) : Prop :=
  ¬Defect ρ tolerate e ∧ ¬SuffixDefect ρ tolerate e

/-- **The evaluator and the folding pass agree with Fortran exactly on the programs without
defects.** -/
theorem constEvalNodes_agrees_iff (P : Processor) (ρ : Env P) (tolerate : Bool)
    (program : List Place) :
    ((∀ p ∈ program, ∀ e ∈ subs p.expr, FoldsAsFortran ρ tolerate e) ∧
      ∀ program', constEvalNodes P tolerate program = .ok program' →
        List.Forall₂ (ReplacedPlace ρ) program program') ↔
    ∀ p ∈ program, ∀ e ∈ subs p.expr, FoldsSafely ρ tolerate e := by
  constructor
  · rintro ⟨h, -⟩ p hp e he
    have hagrees : ∀ e ∈ subs p.expr, ¬Defect ρ tolerate e :=
      (agrees_iff_no_defect p.expr).mp fun e he => (h p hp e he).1
    refine ⟨hagrees e he, ?_⟩
    intro hd
    have hsound := sound_of_no_defect hagrees
    obtain ⟨p', hp', hnot⟩ := not_replaced_of_suffixDefect
      (fun e' he' => hsound e' (subs_trans he (List.mem_of_mem_tail he'))) hd
    exact hnot ((h p hp e he).2 _ _ hp').expr
  · intro h
    refine ⟨?_, fun program' => constEvalNodes_replaced h⟩
    intro p hp e he
    have hclean : Clean ρ tolerate (subs e) := fun e' he' => h p hp e' (subs_trans he he')
    refine ⟨?_, fun context p' => foldPlace_replaced hclean⟩
    exact (agrees_iff_no_defect e).mpr (fun e' he' => (hclean e' he').1) e (mem_subs_self e)

/-- `1 + 1.0`, a REAL(4) expression. -/
def mixedSum : Expr :=
  .binary (.arith .add) (.intLiteral 1 .default) (.realLiteral ⟨false, 10, -1⟩ .none .default)

/-- **The evaluator does not agree with Fortran** on `x = 1 + 1.0`: numpy adds an `int32` and a
`float32` to a `float64`, and the right-hand side becomes a REAL(8) literal. -/
theorem not_constEvalNodes_agrees :
    ¬((∀ p ∈ [Place.mk .rightHandSide mixedSum], ∀ e ∈ subs p.expr,
        FoldsAsFortran (Env.empty (P := exactProcessor)) false e) ∧
      ∀ program', constEvalNodes exactProcessor false [⟨.rightHandSide, mixedSum⟩] = .ok program' →
        List.Forall₂ (ReplacedPlace (Env.empty (P := exactProcessor)))
          [⟨.rightHandSide, mixedSum⟩] program') := by
  rintro ⟨h, -⟩
  have hagrees := (h _ (List.mem_singleton_self _) mixedSum (mem_subs_self _)).1
  have hvalue := (hagrees (.real .float64 ((1 : ℚ) + 10 / 10 ^ 1))
    (.real 4 ((1 : ℚ) + 10 / 10 ^ 1)) rfl rfl).1
  injection hvalue with hkind
  exact absurd hkind (by decide)

end ConstEval
