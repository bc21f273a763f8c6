/-
# The folding pass replaces nodes by their values

What the sweeps of `const_eval_nodes` do to one place: every node they replace
has the value of the literal that replaces it.  The invariant (`Folds`) relates
the expression as it was to the expression as it is between two sweeps; it keeps
the Fortran value, the outcome and the soundness of every node that has a value.
-/
import DaceFortran.ConstEval.ConstEvalNodes
import DaceFortran.Lib.Fallible

open TwosComplement Fallible

namespace ConstEval

variable {P : Processor} {ρ : Env P} {tolerate : Bool}

/-! ## The invariant -/

/-- A literal written for `e`: where `e` has a value the evaluator folds it to that value. -/
structure Written (ρ : Env P) (tolerate : Bool) (e lit : Expr) (v : Scalar P) : Prop where
  lit_eq : numpyTypeToLiteral v = .ok lit
  value_eq : ∀ w, fortran ρ e = some w → v.value = w ∧ ¬w.IsMinimum ∧ outcome ρ tolerate e = .value

mutual

/-- The second expression is the first with some nodes folded. -/
inductive Folds (ρ : Env P) (tolerate : Bool) : Expr → Expr → Prop
  | absent : Folds ρ tolerate .absent .absent
  | null : Folds ρ tolerate .null .null
  | external (name : String) : Folds ρ tolerate (.external name) (.external name)
  | hex (n : ℕ) : Folds ρ tolerate (.hex n) (.hex n)
  | entity (d : Entity) (kind init : Expr) :
      Folds ρ tolerate (.entity d kind init) (.entity d kind init)
  | intLiteral (num : ℤ) (kind : KindParam) :
      Folds ρ tolerate (.intLiteral num kind) (.intLiteral num kind)
  | realLiteral (num : Decimal) (letter : ExponentLetter) (kind : KindParam) :
      Folds ρ tolerate (.realLiteral num letter kind) (.realLiteral num letter kind)
  | logicalLiteral (b : Bool) (kind : KindParam) :
      Folds ρ tolerate (.logicalLiteral b kind) (.logicalLiteral b kind)
  | literal {e lit : Expr} {v : Scalar P} (hvar : e.isVariable = false)
      (h : Written ρ tolerate e lit v) : Folds ρ tolerate e lit
  | suffix {num : Decimal} {letter : ExponentLetter} {name : String} {e lit : Expr}
      {v : Scalar P} (h : Written ρ tolerate e lit v)
      (hk : ∀ w, fortran ρ e = some w → w.kindNumber.isSome → w.IsKindDigits) :
      Folds ρ tolerate (.realLiteral num letter (.named name e))
        (.realLiteral num letter (.node lit))
  | ref {x : String} {a a' : Args} (h : FoldsArgs ρ tolerate a a') :
      Folds ρ tolerate (.ref x a) (.ref x a')
  | binary {op : BinaryOp} {l l' r r' : Expr} (hl : Folds ρ tolerate l l')
      (hr : Folds ρ tolerate r r') : Folds ρ tolerate (.binary op l r) (.binary op l' r')
  | unary {op : UnaryOp} {e e' : Expr} (h : Folds ρ tolerate e e') :
      Folds ρ tolerate (.unary op e) (.unary op e')
  | paren {e e' : Expr} (h : Folds ρ tolerate e e') :
      Folds ρ tolerate (.paren e) (.paren e')
  | intrinsic {f : Intrinsic} {a a' : Args} (h : FoldsArgs ρ tolerate a a') :
      Folds ρ tolerate (.intrinsic f a) (.intrinsic f a')

/-- The same for the arguments. -/
inductive FoldsArgs (ρ : Env P) (tolerate : Bool) : Args → Args → Prop
  | nil : FoldsArgs ρ tolerate .nil .nil
  | cons {keyword : Option String} {e e' : Expr} {a a' : Args} (h : Folds ρ tolerate e e')
      (t : FoldsArgs ρ tolerate a a') :
      FoldsArgs ρ tolerate (.cons keyword e a) (.cons keyword e' a')

end

mutual

/-- Nothing is folded at first. -/
theorem folds_refl : (e : Expr) → Folds ρ tolerate e e
  | .absent => .absent
  | .null => .null
  | .external n => .external n
  | .hex n => .hex n
  | .entity d k i => .entity d k i
  | .intLiteral n k => .intLiteral n k
  | .realLiteral n l k => .realLiteral n l k
  | .logicalLiteral b k => .logicalLiteral b k
  | .ref _ a => .ref (foldsArgs_refl a)
  | .binary _ l r => .binary (folds_refl l) (folds_refl r)
  | .unary _ e => .unary (folds_refl e)
  | .paren e => .paren (folds_refl e)
  | .intrinsic _ a => .intrinsic (foldsArgs_refl a)

theorem foldsArgs_refl : (a : Args) → FoldsArgs ρ tolerate a a
  | .nil => .nil
  | .cons _ e rest => .cons (folds_refl e) (foldsArgs_refl rest)

end

variable {v : Scalar P}

variable {e lit : Expr} {a a' : Args}

variable {w : Value P} {l l' : List Expr} {e' : Expr} {f : Intrinsic} {num : Decimal}
  {name : String}

/-- The literal written for a value that is no minimum, read back. -/
theorem Written.fortran_eq (h : Written ρ tolerate e lit v)
    (hw : fortran ρ e = some w) : fortran ρ lit = some w := by
  obtain ⟨hv, hmin, -⟩ := h.value_eq w hw
  rw [← hv] at hmin ⊢
  exact fortran_literal h.lit_eq hmin

variable {lit : Expr} {e e₁ e₂ : Expr}

/-- A default integer that is not negative is written as digits, and only such. -/
theorem isKindDigits_iff (h : numpyTypeToLiteral v = .ok lit) :
    lit.isKindDigits ↔ v.value.IsKindDigits := by
  rcases v with ⟨t, b⟩ | ⟨t, x⟩ | c
  · simp only [numpyTypeToLiteral] at h
    split_ifs at h with hneg <;> obtain rfl := Except.ok.inj h
    · refine iff_of_false (by simp [Expr.isKindDigits]) ?_
      cases t <;> simp [Value.IsKindDigits, NpInt.countBytes]
      exact hneg
    · cases t <;> simp [Expr.isKindDigits, Value.IsKindDigits, NpInt.countBytes, kindSuffix]
      exact not_lt.mp hneg
  · refine iff_of_false ?_ id
    simp only [numpyTypeToLiteral] at h
    rcases hd : P.write x with _ | d <;> rw [hd] at h
    · cases h
    · simp only at h
      split_ifs at h <;> obtain rfl := Except.ok.inj h <;> simp [Expr.isKindDigits]
  · obtain rfl := Except.ok.inj h
    refine iff_of_false ?_ id
    simp [Expr.isKindDigits]

/-- A sweep that leaves the expression alone keeps the invariant. -/
theorem Folds.of_ok (h : Folds ρ tolerate e e₁)
    (hf : (.ok e₁ : Except Raised Expr) = .ok e₂) : Folds ρ tolerate e e₂ :=
  Except.ok.inj hf ▸ h

mutual

/-- What is folded is replaced by literals of its values. -/
theorem Folds.replaced {e e' : Expr} : Folds ρ tolerate e e' → Replaced ρ e e'
  | .absent => .same _
  | .null => .same _
  | .external _ => .same _
  | .hex _ => .same _
  | .entity _ _ _ => .same _
  | .intLiteral _ _ => .same _
  | .realLiteral _ _ _ => .same _
  | .logicalLiteral _ _ => .same _
  | .literal hvar h => .literal h.lit_eq hvar fun _ hw => h.fortran_eq hw
  | .suffix h hk => .suffix
      (by
        intro w hw hkn
        have hd := hk w hw hkn
        obtain ⟨hv, -, -⟩ := h.value_eq w hw
        rw [isKindDigits_iff h.lit_eq, hv]
        exact hd)
      fun _ hw => h.fortran_eq hw
  | .ref h => .ref h.replaced
  | .binary hl hr => .binary hl.replaced hr.replaced
  | .unary h => .unary h.replaced
  | .paren h => .paren h.replaced
  | .intrinsic h => .intrinsic h.replaced

theorem FoldsArgs.replaced {a a' : Args} : FoldsArgs ρ tolerate a a' → ReplacedArgs ρ a a'
  | .nil => .nil
  | .cons h t => .cons h.replaced t.replaced

end

/-! ## What folding keeps -/

/-- A mismatch needs a name in the kind of an integer literal. -/
theorem not_mismatch_kindSuffix (n : ℤ) (t : NpInt) :
    ¬Mismatch ρ tolerate (.intLiteral n (kindSuffix t.countBytes)) := by
  cases t <;> exact id

/-- An integer literal as it is written is sound. -/
theorem intLiteral_sound (n : ℤ) (t : NpInt) :
    Sound ρ tolerate (.intLiteral n (kindSuffix t.countBytes)) := by
  intro w hw
  refine (intLiteral_follows ?_ hw).imp ?_
  · cases t <;> simp [kindSuffix, NpInt.countBytes, KindParam.expr?]
  · intro v hv
    exact hv.mpr (not_mismatch_kindSuffix n t)

/-- An integer literal as it is written folds when the kind represents it. -/
theorem intLiteral_outcome {n : ℤ} {t : NpInt} (hn : Fits (8 * t.countBytes) n) :
    outcome ρ tolerate (.intLiteral n (kindSuffix t.countBytes)) = .value := by
  cases t <;> exact if_pos hn

variable {e : Expr} {letter : ExponentLetter}

/-- A negated operand is sound when the operand is. -/
theorem negative_sound (h : Sound ρ tolerate e) :
    Sound ρ tolerate (.paren (.unary .minus e)) := by
  intro w hw
  exact unary_follows h hw

/-- **A written literal** is sound and folds. -/
theorem literal_sound (h : numpyTypeToLiteral v = .ok lit)
    (hmin : ¬v.value.IsMinimum) :
    Sound ρ tolerate lit ∧ outcome ρ tolerate lit = .value := by
  rcases v with ⟨t, b⟩ | ⟨t, x⟩ | c
  · simp only [numpyTypeToLiteral] at h
    have hb := fits_toInt b
    split_ifs at h with hneg <;> obtain rfl := Except.ok.inj h
    · exact ⟨negative_sound (intLiteral_sound _ t),
        intLiteral_outcome ((fits_neg_iff hb).mpr hmin)⟩
    · exact ⟨intLiteral_sound _ t, intLiteral_outcome hb⟩
  · simp only [numpyTypeToLiteral] at h
    have hreal : ∀ d : Decimal,
        Sound ρ tolerate (.realLiteral d (letterOf t.countBytes) .default) := by
      intro d w hw
      exact realLiteral_follows (by simp [KindParam.expr?]) hw
    rcases hd : P.write x with _ | d <;> rw [hd] at h
    · cases h
    · simp only at h
      split_ifs at h <;> obtain rfl := Except.ok.inj h
      · exact ⟨negative_sound (hreal _), rfl⟩
      · exact ⟨hreal _, rfl⟩
  · obtain rfl := Except.ok.inj h
    refine ⟨?_, rfl⟩
    intro w hw
    refine (logicalLiteral_follows hw).imp ?_
    intro v hv
    apply hv.mpr
    simp [Mismatch, kindParam]

/-- No subexpression is a defect of either kind. -/
def Clean (ρ : Env P) (tolerate : Bool) (l : List Expr) : Prop :=
  ∀ e ∈ l, ¬Defect ρ tolerate e ∧ ¬SuffixDefect ρ tolerate e

/-- What folding keeps of a node that has a value. -/
def Keeps (ρ : Env P) (tolerate : Bool) (e e' : Expr) : Prop :=
  ∀ w, fortran ρ e = some w →
    fortran ρ e' = some w ∧ Sound ρ tolerate e' ∧ outcome ρ tolerate e' = outcome ρ tolerate e

/-- What lies below a clean expression. -/
theorem Clean.tail (h : Clean ρ tolerate (e :: l)) :
    Clean ρ tolerate l := fun x hx => h x (List.mem_cons_of_mem _ hx)

theorem Clean.left (h : Clean ρ tolerate (l ++ l')) : Clean ρ tolerate l :=
  fun x hx => h x (List.mem_append_left _ hx)

theorem Clean.right (h : Clean ρ tolerate (l ++ l')) : Clean ρ tolerate l' :=
  fun x hx => h x (List.mem_append_right _ hx)

/-- Subexpressions of a clean list are sound. -/
theorem Clean.sound (h : Clean ρ tolerate (subs e)) : Sound ρ tolerate e :=
  sound_of_no_defect (fun e' he' => (h e' he').1) e (mem_subs_self e)

/-- An expression that is not folded keeps everything. -/
theorem keeps_refl (h : Clean ρ tolerate (subs e)) : Keeps ρ tolerate e e :=
  fun _ hw => ⟨hw, h.sound, rfl⟩

/-- A folded node that follows its outcome up to its mismatch is sound, when the node it was
is no defect. -/
theorem sound_of_follows {e : Expr} (hd : ¬Defect ρ tolerate e)
    (hw : fortran ρ e = some w) (hw' : fortran ρ e' = some w)
    (ho : outcome ρ tolerate e' = outcome ρ tolerate e)
    (hm : Mismatch ρ tolerate e' ↔ Mismatch ρ tolerate e)
    (hf : Follows (constEval P tolerate e') (outcome ρ tolerate e')
      (fun v => v.value = w ↔ ¬Mismatch ρ tolerate e')) : Sound ρ tolerate e' := by
  intro w' hw''
  rw [hw'] at hw''
  obtain rfl := Option.some.inj hw''
  unfold Defect at hd
  rw [hm, ho] at hf
  rw [ho]
  revert hd hf
  rcases outcome ρ tolerate e with _ | _ | _
  · rintro hd ⟨v, hv, hiff⟩
    refine ⟨v, hv, hiff.mpr ?_⟩
    intro hm'
    exact hd ⟨rfl, w, hw, Or.inl hm'⟩
  · exact fun _ h => h
  · exact fun _ h => h

/-- A binary node over kept operands. -/
theorem keeps_binary {op : BinaryOp} {l l' r r' : Expr} (hl : Keeps ρ tolerate l l')
    (hr : Keeps ρ tolerate r r') (hd : ¬Defect ρ tolerate (.binary op l r)) :
    Keeps ρ tolerate (.binary op l r) (.binary op l' r') := by
  intro w hw
  have hw₀ := hw
  rw [fortran] at hw₀
  obtain ⟨wl, hwl, h⟩ := Option.bind_eq_some_iff.mp hw₀
  obtain ⟨wr, hwr, h⟩ := Option.bind_eq_some_iff.mp h
  obtain ⟨hwl', hsl, hol⟩ := hl wl hwl
  obtain ⟨hwr', hsr, hor⟩ := hr wr hwr
  have hw' : fortran ρ (.binary op l' r') = some w := by
    rw [fortran, hwl', hwr']
    exact h
  have ho : outcome ρ tolerate (.binary op l' r') = outcome ρ tolerate (.binary op l r) := by
    rw [outcome, outcome, hwl, hwr, hwl', hwr', hol, hor]
  have hm : Mismatch ρ tolerate (.binary op l' r') ↔ Mismatch ρ tolerate (.binary op l r) := by
    rw [mismatch_binary hwl hwr, mismatch_binary hwl' hwr']
  exact ⟨hw', sound_of_follows hd hw hw' ho hm (binary_follows hsl hsr hw'), ho⟩

/-- A unary node over a kept operand. -/
theorem keeps_unary {op : UnaryOp} {e : Expr} (he : Keeps ρ tolerate e e') :
    Keeps ρ tolerate (.unary op e) (.unary op e') := by
  intro w hw
  have hw₀ := hw
  rw [fortran] at hw₀
  obtain ⟨we, hwe, h⟩ := Option.bind_eq_some_iff.mp hw₀
  obtain ⟨hwe', hs, ho⟩ := he we hwe
  refine ⟨?_, ?_, ?_⟩
  · rw [fortran, hwe']
    exact h
  · intro w' hw'
    exact unary_follows hs hw'
  · rw [outcome, outcome, ho]

/-- The arguments kept one by one. -/
inductive ArgsKeep (ρ : Env P) (tolerate : Bool) : Args → Args → Prop
  | nil : ArgsKeep ρ tolerate .nil .nil
  | cons {keyword : Option String} {e e' : Expr} {a a' : Args} (h : Keeps ρ tolerate e e')
      (t : ArgsKeep ρ tolerate a a') :
      ArgsKeep ρ tolerate (.cons keyword e a) (.cons keyword e' a')

/-- Kept arguments refine what is defined of them. -/
theorem ArgsKeep.refine (h : ArgsKeep ρ tolerate a a') :
    ArgsRefine (fortranArgs ρ a) (fortranArgs ρ a') := by
  induction h with
  | nil => exact .nil
  | cons h _ ih => exact .cons ⟨rfl, fun w hw => (h w hw).1⟩ ih

/-- Kept arguments that all have values. -/
theorem ArgsKeep.values (h : ArgsKeep ρ tolerate a a') :
    ∀ {ws : List (Option String × Value P)}, allValues (fortranArgs ρ a) = some ws →
      fortranArgs ρ a' = fortranArgs ρ a ∧
        argOutcomes ρ tolerate a' = argOutcomes ρ tolerate a ∧
        ∀ e ∈ a'.exprs, Sound ρ tolerate e := by
  induction h with
  | nil =>
    intro ws _
    refine ⟨rfl, rfl, ?_⟩
    intro e he
    cases he
  | @cons keyword e e' a a' h _ ih =>
    intro ws hws
    rw [fortranArgs] at hws
    rcases he : fortran ρ e with _ | v <;> rw [he] at hws
    · cases hws
    · obtain ⟨ws', hws', -⟩ := Option.map_eq_some_iff.mp hws
      obtain ⟨hv, hs, ho⟩ := h v he
      obtain ⟨hargs, houts, hsound⟩ := ih hws'
      refine ⟨?_, ?_, ?_⟩
      · rw [fortranArgs, fortranArgs, hv, he, hargs]
      · rw [argOutcomes, argOutcomes, ho, houts]
      · intro e'' he''
        rcases List.mem_cons.mp he'' with rfl | he''
        · exact hs
        · exact hsound e'' he''

/-- The mismatch of an intrinsic depends on the values of its arguments only. -/
theorem mismatch_intrinsic
    (h : fortranArgs ρ a' = fortranArgs ρ a) :
    Mismatch ρ tolerate (.intrinsic f a') ↔ Mismatch ρ tolerate (.intrinsic f a) := by
  cases f with
  | selectedIntKind =>
    rcases a with _ | ⟨k, e, rest⟩ <;> rcases a' with _ | ⟨k', e', rest'⟩
    · rfl
    · cases h
    · cases h
    · have hv : fortran ρ e' = fortran ρ e := by
        rw [fortranArgs, fortranArgs, List.cons.injEq, Prod.mk.injEq] at h
        exact h.1.2
      simp only [Mismatch, hv]
  | _ => rfl

/-- An intrinsic reference over kept arguments. -/
theorem keeps_intrinsic (h : ArgsKeep ρ tolerate a a')
    (hd : ¬Defect ρ tolerate (.intrinsic f a)) :
    Keeps ρ tolerate (.intrinsic f a) (.intrinsic f a') := by
  intro w hw
  have hw₀ := hw
  rw [fortran] at hw₀
  obtain ⟨ws, hws, _⟩ := Option.bind_eq_some_iff.mp hw₀
  obtain ⟨hargs, houts, hsound⟩ := h.values hws
  have hw' : fortran ρ (.intrinsic f a') = some w := by
    rw [fortran, hargs]
    exact hw₀
  have ho : outcome ρ tolerate (.intrinsic f a') = outcome ρ tolerate (.intrinsic f a) := by
    rw [outcome, outcome, hargs, houts]
  exact ⟨hw', sound_of_follows hd hw hw' ho (mismatch_intrinsic hargs)
    (intrinsic_follows hsound hw'), ho⟩

/-- A literal written for a node keeps it. -/
theorem keeps_written (h : Written ρ tolerate e lit v) :
    Keeps ρ tolerate e lit := by
  intro w hw
  obtain ⟨hv, hmin, ho⟩ := h.value_eq w hw
  have hmin' : ¬v.value.IsMinimum := hv ▸ hmin
  obtain ⟨hs, hlit⟩ : Sound ρ tolerate lit ∧ outcome ρ tolerate lit = .value :=
    literal_sound h.lit_eq hmin'
  exact ⟨h.fortran_eq hw, hs, by rw [hlit, ho]⟩

/-- A real literal whose named kind has become digits keeps its value. -/
theorem keeps_suffix
    (h : Written ρ tolerate e lit v)
    (hk : ∀ w, fortran ρ e = some w → w.kindNumber.isSome → w.IsKindDigits) :
    Keeps ρ tolerate (.realLiteral num letter (.named name e))
      (.realLiteral num letter (.node lit)) := by
  intro w hw
  have hw₀ := hw
  obtain ⟨k, hkind, h₁⟩ := Option.bind_eq_some_iff.mp hw₀
  obtain ⟨we, hwe, hkn⟩ := Option.bind_eq_some_iff.mp hkind
  obtain ⟨hlit, hs, hol⟩ := keeps_written h we hwe
  obtain ⟨-, -, ho⟩ := h.value_eq we hwe
  have hw' : fortran ρ (.realLiteral num letter (.node lit)) = some w := by
    refine Option.bind_eq_some_iff.mpr ⟨k, ?_, h₁⟩
    exact Option.bind_eq_some_iff.mpr ⟨we, hlit, hkn⟩
  refine ⟨hw', ?_, ?_⟩
  · intro w' hw''
    refine realLiteral_follows ?_ hw''
    intro e' he'
    obtain rfl := Option.some.inj he'
    exact hs
  · have hd := hk we hwe (by rw [hkn]; rfl)
    simp only [outcome, realLiteralOutcome, hwe, hlit, ho, hol, if_true]
    unfold Value.IsKindDigits at hd
    split at hd
    · rfl
    · exact hd.elim

mutual

/-- **Folding keeps** every node of a clean expression that has a value. -/
theorem Folds.keeps {e e' : Expr} :
    Folds ρ tolerate e e' → Clean ρ tolerate (subs e) → Keeps ρ tolerate e e'
  | .absent, hc => keeps_refl hc
  | .null, hc => keeps_refl hc
  | .external _, hc => keeps_refl hc
  | .hex _, hc => keeps_refl hc
  | .entity _ _ _, hc => keeps_refl hc
  | .intLiteral _ _, hc => keeps_refl hc
  | .realLiteral _ _ _, hc => keeps_refl hc
  | .logicalLiteral _ _, hc => keeps_refl hc
  | .literal _ h, _ => keeps_written h
  | .suffix h hk, _ => keeps_suffix h hk
  | .ref h, hc => by
    have ha := h.keeps hc.tail
    intro w hw
    exact ⟨ρ.mono _ _ _ _ ha.refine hw, fun _ _ => follows_none rfl, rfl⟩
  | .binary hl hr, hc =>
    keeps_binary (hl.keeps hc.tail.left)
      (hr.keeps hc.tail.right)
      (hc _ (mem_subs_self _)).1
  | .unary h, hc => keeps_unary (h.keeps hc.tail)
  | .paren h, hc => h.keeps hc.tail
  | .intrinsic h, hc =>
    keeps_intrinsic (h.keeps hc.tail)
      (hc _ (mem_subs_self _)).1

theorem FoldsArgs.keeps {a a' : Args} :
    FoldsArgs ρ tolerate a a' → Clean ρ tolerate (argSubs a) → ArgsKeep ρ tolerate a a'
  | .nil, _ => .nil
  | .cons h t, hc => .cons (h.keeps hc.left)
      (t.keeps hc.right)

end

/-! ## Literals are left alone -/

/-- The names and references of a literal: it has none. -/
theorem swept_literal (h : numpyTypeToLiteral v = .ok lit) :
    foldNames P tolerate lit = .ok lit ∧ foldRefs P tolerate lit = .ok lit := by
  rcases v with ⟨t, b⟩ | ⟨t, x⟩ | c
  · simp only [numpyTypeToLiteral] at h
    split_ifs at h <;> obtain rfl := Except.ok.inj h <;> cases t <;> exact ⟨rfl, rfl⟩
  · simp only [numpyTypeToLiteral] at h
    rcases hd : P.write x with _ | d <;> rw [hd] at h
    · cases h
    · simp only at h
      split_ifs at h <;> obtain rfl := Except.ok.inj h <;> exact ⟨rfl, rfl⟩
  · obtain rfl := Except.ok.inj h
    exact ⟨rfl, rfl⟩

/-- Folding a literal that is a number or a truth value: its own value is written. -/
theorem foldNode_value {e : Expr} (h : foldNode P tolerate e = .ok e')
    (hv : constEval P tolerate e = .ok (some v)) : numpyTypeToLiteral v = .ok e' := by
  unfold foldNode constEvalNode at h
  rw [hv] at h
  rcases hl : numpyTypeToLiteral v with r | lit
  · simp only [hl, bind, Except.bind] at h
    cases h
  · simp only [hl, bind, Except.bind, pure, Except.pure] at h
    exact h

/-- An integer literal without a sign, as it is written. -/
theorem foldNode_intLiteral {n : ℤ} {t : NpInt} (hn : 0 ≤ n)
    (h : foldNode P tolerate (.intLiteral n (kindSuffix t.countBytes)) = .ok e') :
    e' = .intLiteral n (kindSuffix t.countBytes) := by
  by_cases hf : Fits (8 * t.countBytes) n
  · have hv : constEval P tolerate (.intLiteral n (kindSuffix t.countBytes)) =
        .ok (some (.ofInt t n)) := by
      cases t <;> exact congrArg (fun x => x >>= fun v => Except.ok (some v)) (if_pos hf)
    have hw := foldNode_value h hv
    unfold Scalar.ofInt at hw
    simp only [numpyTypeToLiteral] at hw
    rw [toInt_ofInt_of_fits t.bits_pos hf, if_neg (not_lt.mpr hn)] at hw
    exact (Except.ok.inj hw).symm
  · have hv : constEval P tolerate (.intLiteral n (kindSuffix t.countBytes)) =
        .error .overflowError := by
      cases t <;> exact congrArg (fun x => x >>= fun v => Except.ok (some v)) (if_neg hf)
    unfold foldNode constEvalNode at h
    rw [hv] at h
    cases h

/-- A real literal without a sign, as it is written. -/
theorem foldNode_realLiteral {d : Decimal} {t : NpReal} (hd : d.negative = false)
    (hw : P.write (P.read t.countBytes d) = some d)
    (h : foldNode P tolerate (.realLiteral d (letterOf t.countBytes) .default) = .ok e') :
    e' = .realLiteral d (letterOf t.countBytes) .default := by
  have hv : constEval P tolerate (.realLiteral d (letterOf t.countBytes) .default) =
      .ok (some (.real t (P.read _ d))) := by
    cases t <;> rfl
  have hlit := foldNode_value h hv
  simp only [numpyTypeToLiteral, hw, hd] at hlit
  exact (Except.ok.inj hlit).symm

/-- **The general sweep leaves a literal as it is.** -/
theorem foldExpr_literal {lit : Expr} (h : numpyTypeToLiteral v = .ok lit)
    (hf : foldExpr P tolerate lit = .ok e') : e' = lit := by
  rcases v with ⟨t, b⟩ | ⟨t, x⟩ | c
  · simp only [numpyTypeToLiteral] at h
    split_ifs at h with hneg <;> obtain rfl := Except.ok.inj h
    · -- the sweep enters the parentheses and the sign
      obtain ⟨e₁, h₁, h₂⟩ := ok_of_bind hf
      obtain ⟨e₂, h₃, h₄⟩ := ok_of_bind h₁
      obtain rfl := Except.ok.inj h₂
      obtain rfl := Except.ok.inj h₄
      rw [foldNode_intLiteral (by omega) h₃]
    · exact foldNode_intLiteral (not_lt.mp hneg) hf
  · simp only [numpyTypeToLiteral] at h
    rcases hd : P.write x with _ | d <;> rw [hd] at h
    · cases h
    · have hx : P.read t.countBytes d = x := P.read_write x d hd
      simp only at h
      split_ifs at h with hneg hzero <;> obtain rfl := Except.ok.inj h
      · obtain ⟨e₁, h₁, h₂⟩ := ok_of_bind hf
        obtain ⟨e₂, h₃, h₄⟩ := ok_of_bind h₁
        obtain rfl := Except.ok.inj h₂
        obtain rfl := Except.ok.inj h₄
        rw [foldNode_realLiteral rfl (P.write_abs x d hd hneg) h₃]
      · refine foldNode_realLiteral (by simpa using hneg) ?_ hf
        rw [hx, hd]
  · obtain rfl := Except.ok.inj h
    have hlit := foldNode_value hf (v := .bool c) rfl
    exact (Except.ok.inj hlit).symm

/-! ## One visit -/

/-- A node that folds is no variable. -/
theorem Folds.not_variable {e e₁ : Expr} (h : Folds ρ tolerate e e₁)
    (hv : constEval P tolerate e₁ = .ok (some v)) : e.isVariable = false := by
  by_contra hvar
  rw [Bool.not_eq_false] at hvar
  cases h with
  | external name => cases hv
  | ref h => cases hv
  | literal hvar' h =>
    rw [hvar] at hvar'
    cases hvar'
  | entity d kind init =>
    -- a name that is no PARAMETER has no value whatever its declaration says
    have hp : d.parameter = false := by simpa [Expr.isVariable] using hvar
    rw [constEval] at hv
    obtain ⟨spec, -, hv⟩ := ok_of_bind hv
    simp [constantValue, hp] at hv
  | _ => cases hvar

/-- **What is written for a folded node** has the node's value. -/
theorem Folds.written {e e₁ lit : Expr} (h : Folds ρ tolerate e e₁)
    (hc : Clean ρ tolerate (subs e)) (hn : constEvalNode P tolerate e₁ = .ok (some lit)) :
    ∃ v, constEval P tolerate e₁ = .ok (some v) ∧ Written ρ tolerate e lit v := by
  obtain ⟨o, hv, hn⟩ := ok_of_bind hn
  rcases o with _ | v
  · cases hn
  · obtain ⟨lit', hl, hn⟩ := ok_of_bind hn
    obtain rfl := Option.some.inj (Except.ok.inj hn)
    refine ⟨v, hv, hl, ?_⟩
    intro w hw
    obtain ⟨hw₁, hs, ho⟩ := h.keeps hc w hw
    have hf := hs w hw₁
    rw [hv, ho] at hf
    have hd := (hc e (mem_subs_self e)).1
    unfold Defect at hd
    revert hd hf
    rcases outcome ρ tolerate e with _ | _ | _
    · rintro ⟨v', hv', hgood⟩ hd
      obtain rfl := Option.some.inj (Except.ok.inj hv')
      refine ⟨hgood, ?_, rfl⟩
      intro hmin
      exact hd ⟨rfl, w, hw, Or.inr hmin⟩
    · intro hf
      cases hf
    · rintro ⟨x, hf⟩
      cases hf

/-- A folded node is replaced by a literal of its value. -/
theorem Folds.fold {e e₁ lit : Expr} (h : Folds ρ tolerate e e₁)
    (hc : Clean ρ tolerate (subs e)) (hn : constEvalNode P tolerate e₁ = .ok (some lit)) :
    Folds ρ tolerate e lit := by
  obtain ⟨v, hv, hw⟩ := h.written hc hn
  exact .literal (h.not_variable hv) hw

/-- The whole node, folded or left. -/
theorem Folds.foldWhole (h : Folds ρ tolerate e e₁)
    (hc : Clean ρ tolerate (subs e)) (hf : foldWhole P tolerate e₁ = .ok e₂) :
    Folds ρ tolerate e e₂ := by
  obtain ⟨o, hn, rfl⟩ := ok_of_map hf
  rcases o with _ | lit
  · exact h
  · exact h.fold hc hn

/-- The kind of a clean real literal becomes digits. -/
theorem folds_suffix
    (hc : Clean ρ tolerate (subs (.realLiteral num letter (.named name e))))
    (hn : constEvalNode P tolerate e = .ok (some lit)) :
    Folds ρ tolerate (.realLiteral num letter (.named name e))
      (.realLiteral num letter (.node lit)) := by
  have hs := (hc _ (mem_subs_self _)).2
  obtain ⟨v, -, hw⟩ :=
    (folds_refl e).written hc.tail hn
  refine .suffix hw ?_
  intro w hv hk
  by_contra hdigits
  obtain ⟨-, -, ho⟩ := hw.value_eq w hv
  exact hs ⟨ho, w, hv, hk, hdigits⟩

mutual

/-- **Folding the names** keeps the invariant. -/
theorem Folds.foldNames {e e₁ e₂ : Expr} : Folds ρ tolerate e e₁ → Clean ρ tolerate (subs e) →
    foldNames P tolerate e₁ = .ok e₂ → Folds ρ tolerate e e₂
  | .absent, _, hf => Folds.absent.of_ok hf
  | .null, _, hf => Folds.null.of_ok hf
  | .external name, _, hf => (Folds.external name).of_ok hf
  | .hex n, _, hf => (Folds.hex n).of_ok hf
  | .entity d kind init, hc, hf => by
    obtain ⟨o, hn, rfl⟩ := ok_of_map hf
    rcases o with _ | lit
    · exact .entity d kind init
    · exact (folds_refl _).fold hc hn
  | .intLiteral num kind, _, hf => by
    rcases kind with _ | n | ⟨name, e⟩ | e
    · obtain rfl := Except.ok.inj hf
      exact .intLiteral ..
    · obtain rfl := Except.ok.inj hf
      exact .intLiteral ..
    · obtain ⟨o, -, hf⟩ := ok_of_bind hf
      rcases o with _ | lit
      · obtain rfl := Except.ok.inj hf
        exact .intLiteral ..
      · cases hf
    · obtain rfl := Except.ok.inj hf
      exact .intLiteral ..
  | .realLiteral num letter kind, hc, hf => by
    rcases kind with _ | n | ⟨name, e⟩ | e
    · obtain rfl := Except.ok.inj hf
      exact .realLiteral ..
    · obtain rfl := Except.ok.inj hf
      exact .realLiteral ..
    · obtain ⟨o, hn, hf⟩ := ok_of_bind hf
      rcases o with _ | lit <;> obtain rfl := Except.ok.inj hf
      · exact .realLiteral ..
      · exact folds_suffix hc hn
    · obtain rfl := Except.ok.inj hf
      exact .realLiteral ..
  | .logicalLiteral b kind, _, hf => (Folds.logicalLiteral b kind).of_ok hf
  | .literal hvar h, _, hf => by
    rw [(swept_literal h.lit_eq).1] at hf
    obtain rfl := Except.ok.inj hf
    exact .literal hvar h
  | .suffix h hk, _, hf => (Folds.suffix h hk).of_ok hf
  | .ref h, hc, hf => by
    obtain ⟨a, ha, rfl⟩ := ok_of_map hf
    exact .ref (h.foldArgNames hc.tail ha)
  | .binary hl hr, hc, hf => by
    obtain ⟨r, hr', hf⟩ := ok_of_bind hf
    obtain ⟨l, hl', rfl⟩ := ok_of_map hf
    exact .binary (hl.foldNames hc.tail.left hl') (hr.foldNames hc.tail.right hr')
  | .unary h, hc, hf => by
    obtain ⟨e, he, rfl⟩ := ok_of_map hf
    exact .unary (h.foldNames hc.tail he)
  | .paren h, hc, hf => by
    obtain ⟨e, he, rfl⟩ := ok_of_map hf
    exact .paren (h.foldNames hc.tail he)
  | .intrinsic h, hc, hf => by
    obtain ⟨a, ha, rfl⟩ := ok_of_map hf
    exact .intrinsic (h.foldArgNames hc.tail ha)

theorem FoldsArgs.foldArgNames {a a₁ a₂ : Args} : FoldsArgs ρ tolerate a a₁ →
    Clean ρ tolerate (argSubs a) → foldArgNames P tolerate a₁ = .ok a₂ → FoldsArgs ρ tolerate a a₂
  | .nil, _, hf => by
    obtain rfl := Except.ok.inj hf
    exact .nil
  | .cons h t, hc, hf => by
    obtain ⟨rest, ht, hf⟩ := ok_of_bind hf
    obtain ⟨e, he, rfl⟩ := ok_of_map hf
    exact .cons (h.foldNames hc.left he)
      (t.foldArgNames hc.right ht)

end

/-- **A visit of one node** keeps the invariant. -/
theorem Folds.foldNode (h : Folds ρ tolerate e e₁)
    (hc : Clean ρ tolerate (subs e)) (hf : foldNode P tolerate e₁ = .ok e₂) :
    Folds ρ tolerate e e₂ := by
  obtain ⟨o, hn, hf⟩ := ok_of_bind hf
  rcases o with _ | lit
  · exact h.foldNames hc hf
  · obtain rfl := Except.ok.inj hf
    exact h.fold hc hn

end ConstEval
