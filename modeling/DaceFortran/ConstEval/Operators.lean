/-
# Operators, literals and intrinsics of numpy against Fortran's

One lemma for each operation of the evaluator: on scalars whose Fortran values
have a result, what numpy computes is that result, up to the mismatches that
`FortranValue.lean` lists.
-/
import DaceFortran.ConstEval.FortranValue

open TwosComplement

namespace ConstEval

variable {P : Processor}

/-! ## Following an outcome -/

/-- The result is as the outcome says; a returned scalar is `good`. -/
def Follows (r : Result P) (o : Outcome) (good : Scalar P → Prop) : Prop :=
  match o with
  | .value => ∃ v, r = .ok (some v) ∧ good v
  | .none => r = .ok none
  | .raises => ∃ x, r = .error x

variable {good : Scalar P → Prop} {w : Value P} {op : BinaryOp}

variable {r : Result P} {f : Bool → Bool → Bool}

variable {v : Scalar P}

theorem follows_value
    (hr : r = .ok (some v)) (hv : good v) : Follows r .value good := ⟨v, hr, hv⟩

theorem follows_none (hr : r = .ok none) :
    Follows r .none good := hr

theorem follows_raises {x : Raised}
    (hr : r = .error x) : Follows r .raises good := ⟨x, hr⟩

/-- A weaker demand on the scalar. -/
theorem Follows.imp {o : Outcome} {good good' : Scalar P → Prop}
    (h : Follows r o good) (himp : ∀ v, good v → good' v) : Follows r o good' := by
  rcases o with _ | _ | _
  · obtain ⟨v, hr, hv⟩ := h
    exact ⟨v, hr, himp v hv⟩
  · exact h
  · exact h

variable {r : Except Raised (Scalar P)}

theorem follows_return
    (hr : r = .ok v) (hv : good v) : Follows (do return some (← r)) .value good := by
  rw [hr]
  exact ⟨v, rfl, hv⟩

theorem follows_return_raises
    {x : Raised} (hr : r = .error x) : Follows (do return some (← r)) .raises good := by
  rw [hr]
  exact ⟨x, rfl⟩

/-! ## Scalars from their values -/

variable {k k' : ℕ} {s t : NpInt}

/-- An integer value comes from an integer word. -/
theorem Scalar.eq_int_of_value {n : ℤ} (h : v.value = .int k n) :
    ∃ (t : NpInt) (b : BitVec (8 * t.countBytes)),
      v = .int t b ∧ t.countBytes = k ∧ b.toInt = n := by
  rcases v with ⟨t, b⟩ | ⟨t, x⟩ | b
  · rw [Scalar.value_int] at h
    injection h with hk hn
    exact ⟨t, b, rfl, hk, hn⟩
  · cases h
  · cases h

/-! ## Integer results -/

/-- What fits is stored as it is, at the wider of two types. -/
theorem value_ofInt_join {n : ℤ}
    (h : Value.ofInt? (max s.countBytes t.countBytes) n = some w) :
    (Scalar.ofInt (s.join t) n : Scalar P).value = w := by
  unfold Value.ofInt? at h
  split_ifs at h with hf
  rw [← NpInt.countBytes_join] at hf h
  rw [Scalar.value_ofInt hf]
  injection h

/-- **Truncating division**: the stepped quotient is Fortran's. -/
theorem value_cdivInt {a b : ℤ} (hb : b ≠ 0)
    (h : Value.ofInt? t.countBytes (a.tdiv b) = some w) :
    (Scalar.int t (cdivInt t a b) : Scalar P).value = w := by
  have hq : cdivInt t a b = BitVec.ofInt _ (a.tdiv b) := by
    simp only [cdivInt, if_neg hb]
    rw [tdiv_eq_fdiv_step hb]
    split_ifs
    · rw [BitVec.ofInt_add]
      rfl
    · rfl
  unfold Value.ofInt? at h
  split_ifs at h with hf
  injection h with h
  rw [hq, ← h]
  exact Scalar.value_ofInt hf

/-- Integer arithmetic on promoted operands, a negative power apart. -/
theorem arithValue_ints {op : ArithOp} {a b : ℤ}
    (h : (intArith op a b).bind (Value.ofInt? (max s.countBytes t.countBytes)) = some w)
    (hneg : ¬(op = .pow ∧ b < 0)) :
    ∃ v, arithValue op (.ints (s.join t) a b) = .ok v ∧ v.value = w := by
  cases op with
  | add => exact ⟨_, rfl, value_ofInt_join h⟩
  | sub => exact ⟨_, rfl, value_ofInt_join h⟩
  | mul => exact ⟨_, rfl, value_ofInt_join h⟩
  | div =>
    by_cases hb : b = 0
    · simp [intArith, hb] at h
    · refine ⟨_, rfl, value_cdivInt hb ?_⟩
      rw [NpInt.countBytes_join]
      simpa [intArith, hb] using h
  | pow =>
    have hb : 0 ≤ b := by
      by_contra hb
      exact hneg ⟨rfl, by omega⟩
    refine ⟨.ofInt (s.join t) (a ^ b.toNat), ?_, ?_⟩
    · simp [arithValue, not_lt.mpr hb]
    · apply value_ofInt_join
      simpa [intArith, hb] using h

/-! ## Real results -/

/-- Real arithmetic on promoted operands. -/
theorem arithValue_reals (op : ArithOp) (t : NpReal) (x y : P.R t.countBytes) :
    arithValue op (.reals t x y) = .ok (.real t (P.arith op x y)) := by
  cases op <;> rfl

/-- Reals of two kinds are different values. -/
theorem Value.real_ne (h : k ≠ k') (x : P.R k) (y : P.R k') :
    (Value.real k x : Value P) ≠ Value.real k' y := by
  intro he
  injection he with hk
  exact h hk

/-- An integer beside a real: the type is the real's, unless numpy widens it. -/
theorem withReal_eq_or (s : NpInt) (t : NpReal) :
    (s.withReal t = t ∧ ¬(4 ≤ s.countBytes ∧ t.countBytes = 4)) ∨
    (s.withReal t = .float64 ∧ t = .float32 ∧ 4 ≤ s.countBytes) := by
  cases s <;> cases t <;> simp [NpInt.withReal, NpInt.countBytes, NpReal.countBytes]

/-- **An operation on an integer and a real** has the real's kind unless numpy widens it. -/
theorem mixed_value_iff (f : {k : ℕ} → P.R k → P.R k → P.R k) (s : NpInt) (t : NpReal)
    (n : ℤ) (y : P.R t.countBytes) :
    (Value.real _ (f (P.ofInt (s.withReal t).countBytes n) (P.convert t.countBytes _ y)) =
      Value.real _ (f (P.ofInt t.countBytes n) y)) ↔ ¬(4 ≤ s.countBytes ∧ t.countBytes = 4) := by
  rcases withReal_eq_or s t with ⟨he, hn⟩ | ⟨he, rfl, hs⟩
  · rw [he, P.convert_self]
    exact iff_of_true rfl hn
  · rw [he]
    refine iff_of_false (Value.real_ne (by decide) _ _) ?_
    rw [not_not]
    exact ⟨hs, rfl⟩

/-! ## Binary operators -/

/-- Whether the operation is a power of integers with a negative exponent. -/
theorem negativePower_arith {op : ArithOp} {a b : ℤ} :
    negativePower (P := P) (.arith op) (some (.int k a)) (some (.int k' b)) = true ↔
      op = .pow ∧ b < 0 := by
  cases op <;> simp [negativePower]

/-- **Arithmetic** agrees unless an integer of four bytes or more meets a REAL(4). -/
theorem arithValue_spec (op : ArithOp) (a b : Scalar P)
    (h : arithFortran op a.value b.value = some w)
    (hneg : ¬negativePower (.arith op) (some a.value) (some b.value)) :
    ∃ p v, promote a b = some p ∧ arithValue op p = .ok v ∧
      (v.value = w ↔ ¬Widened a.value b.value) := by
  rcases a with ⟨s, v⟩ | ⟨s, x⟩ | c <;> rcases b with ⟨t, u⟩ | ⟨t, y⟩ | d
  · -- both integers
    rw [Scalar.value_int, Scalar.value_int, negativePower_arith] at hneg
    obtain ⟨r, hr, hw⟩ := arithValue_ints h hneg
    exact ⟨_, r, rfl, hr, by simp [hw, Widened]⟩
  · -- an integer and a real
    obtain rfl := Option.some.inj h
    exact ⟨_, _, rfl, arithValue_reals _ _ _ _, mixed_value_iff (P.arith op) s t v.toInt y⟩
  · cases h
  · -- a real and an integer
    obtain rfl := Option.some.inj h
    exact ⟨_, _, rfl, arithValue_reals _ _ _ _,
      mixed_value_iff (fun x y => P.arith op y x) t s u.toInt x⟩
  · -- both reals
    obtain rfl := Option.some.inj h
    refine ⟨_, _, rfl, arithValue_reals _ _ _ _, iff_of_true ?_ id⟩
    rw [Scalar.value_real, NpReal.countBytes_join]
  all_goals cases h

/-- Truth values of the default kind. -/
theorem logical4_inj {b c : Bool} : (Value.logical 4 b : Value P) = .logical 4 c ↔ b = c := by
  constructor
  · intro h
    injection h
  · rintro rfl
    rfl

/-- **Comparison** agrees unless such operands compare apart. -/
theorem cmpValue_spec (op : CmpOp) (a b : Scalar P)
    (h : cmpFortran op a.value b.value = some w) :
    ∃ p, promote a b = some p ∧
      ((cmpValue op p).value = w ↔ ¬ComparesApart op a.value b.value) := by
  rcases a with ⟨s, v⟩ | ⟨s, x⟩ | c <;> rcases b with ⟨t, u⟩ | ⟨t, y⟩ | d
  · obtain rfl := Option.some.inj h
    exact ⟨_, rfl, iff_of_true rfl id⟩
  · obtain rfl := Option.some.inj h
    refine ⟨_, rfl, ?_⟩
    rw [cmpValue, Scalar.value_bool, logical4_inj]
    rcases withReal_eq_or s t with ⟨he, hn⟩ | ⟨he, rfl, hs⟩
    · rw [he, P.convert_self]
      refine iff_of_true rfl ?_
      cases t
      · exact fun h => hn ⟨h.1, rfl⟩
      · exact id
    · rw [he]
      show _ ↔ ¬(4 ≤ s.countBytes ∧ _ ≠ _)
      rw [not_and_not_right]
      exact ⟨fun h _ => h, fun h => h hs⟩
  · cases h
  · obtain rfl := Option.some.inj h
    refine ⟨_, rfl, ?_⟩
    rw [cmpValue, Scalar.value_bool, logical4_inj]
    rcases withReal_eq_or t s with ⟨he, hn⟩ | ⟨he, rfl, hs⟩
    · rw [he, P.convert_self]
      refine iff_of_true rfl ?_
      cases s
      · exact fun h => hn ⟨h.1, rfl⟩
      · exact id
    · rw [he]
      show _ ↔ ¬(4 ≤ t.countBytes ∧ _ ≠ _)
      rw [not_and_not_right]
      exact ⟨fun h _ => h, fun h => h hs⟩
  · obtain rfl := Option.some.inj h
    refine ⟨_, rfl, iff_of_true ?_ ?_⟩
    · rw [cmpValue, Scalar.value_bool, NpReal.countBytes_join]
    · cases s <;> cases t <;> exact id
  all_goals cases h

variable {a b : Scalar P}

/-- What the scalars of a logical operation are. -/
theorem logicalFortran_eq_some
    (h : logicalFortran f a.value b.value = some w) :
    ∃ c d, a = .bool c ∧ b = .bool d ∧ w = .logical 4 (f c d) := by
  rcases a with ⟨s, v⟩ | ⟨s, x⟩ | c <;> rcases b with ⟨t, u⟩ | ⟨t, y⟩ | d
  case bool.bool =>
    obtain rfl := Option.some.inj h
    exact ⟨c, d, rfl, rfl, rfl⟩
  all_goals cases h

/-- The values of a logical operation whose left operand is a scalar's. -/
theorem logicalFortran_left {c : Bool} {r w : Value P}
    (h : logicalFortran f (.logical 4 c) r = some w) : ∃ d, w = .logical 4 (f c d) := by
  rcases r with ⟨k, n⟩ | ⟨k, x⟩ | ⟨k, d⟩
  · cases h
  · cases h
  · rw [logicalFortran] at h
    split_ifs at h
    exact ⟨d, (Option.some.inj h).symm⟩

/-- The values of a logical operation whose right operand is a scalar's. -/
theorem logicalFortran_right {d : Bool} {l w : Value P}
    (h : logicalFortran f l (.logical 4 d) = some w) : ∃ c, w = .logical 4 (f c d) := by
  rcases l with ⟨k, n⟩ | ⟨k, x⟩ | ⟨k, c⟩
  · cases h
  · cases h
  · rw [logicalFortran] at h
    split_ifs at h with hk
    rw [← Option.some.inj h, hk]
    exact ⟨c, rfl⟩

/-- The operand is numpy's boolean exactly when its value is that truth value. -/
theorem isBool_some (b : Bool) (a : Scalar P) :
    isBool b (some a) = Value.isLogical b (some a.value) := by
  cases a <;> rfl

/-- What is wrong with a binary operation on two values. -/
def BinaryMismatch : BinaryOp → Value P → Value P → Prop
  | .arith _, a, b => Widened a b
  | .cmp op, a, b => ComparesApart op a b
  | _, _, _ => False

/-- Two evaluated operands. -/
theorem binaryValue_both
    (h : binaryFortran op a.value b.value = some w)
    (hneg : ¬negativePower op (some a.value) (some b.value)) :
    ∃ v, binaryValue op (some a) (some b) = .ok (some v) ∧
      (v.value = w ↔ ¬BinaryMismatch op a.value b.value) := by
  cases op with
  | arith op =>
    obtain ⟨p, v, hp, hv, hiff⟩ := arithValue_spec op a b h hneg
    refine ⟨v, ?_, hiff⟩
    simp [binaryValue, hp, hv, bind, Except.bind, pure, Except.pure]
  | cmp op =>
    obtain ⟨p, hp, hiff⟩ := cmpValue_spec op a b h
    refine ⟨cmpValue op p, ?_, hiff⟩
    simp [binaryValue, hp, bind, Except.bind, pure, Except.pure]
  | and =>
    obtain ⟨c, d, rfl, rfl, rfl⟩ := logicalFortran_eq_some h
    refine ⟨.bool (c && d), ?_, iff_of_true rfl id⟩
    cases c <;> cases d <;> rfl
  | or =>
    obtain ⟨c, d, rfl, rfl, rfl⟩ := logicalFortran_eq_some h
    refine ⟨.bool (c || d), ?_, iff_of_true rfl id⟩
    cases c <;> cases d <;> rfl
  | xor =>
    obtain ⟨c, d, rfl, rfl, rfl⟩ := logicalFortran_eq_some h
    exact ⟨.bool (c ^^ d), rfl, iff_of_true rfl id⟩
  | other => cases h

/-- numpy refuses a negative power of integers. -/
theorem binaryValue_negativePower
    (h : negativePower op (some a.value) (some b.value)) :
    ∃ x, binaryValue op (some a) (some b) = .error x := by
  unfold negativePower at h
  split at h
  case h_1 ha hb =>
    obtain ⟨s, v, rfl, -, rfl⟩ := Scalar.eq_int_of_value (Option.some.inj ha)
    obtain ⟨t, u, rfl, -, rfl⟩ := Scalar.eq_int_of_value (Option.some.inj hb)
    refine ⟨.valueError, ?_⟩
    simp only [decide_eq_true_eq] at h
    simp [binaryValue, promote, arithValue, h, bind, Except.bind]
  · cases h

/-- A left operand that decides the operation alone. -/
theorem binaryValue_left {a : Scalar P} {r w : Value P}
    (h : binaryFortran op a.value r = some w) :
    Follows (binaryValue op (some a) none)
      (binaryOutcome op (some a.value) (some r) .value .none)
      (fun v => v.value = w ↔ ¬BinaryMismatch op a.value r) := by
  by_cases hand : op = .and ∧ Value.isLogical false (some a.value)
  · obtain ⟨rfl, hb⟩ := hand
    have ha : a = .bool false := by
      cases a <;> simp_all [Value.isLogical]
    subst ha
    obtain ⟨d, rfl⟩ := logicalFortran_left h
    exact follows_value rfl (iff_of_true rfl id)
  · by_cases hor : op = .or ∧ Value.isLogical true (some a.value)
    · obtain ⟨rfl, hb⟩ := hor
      have ha : a = .bool true := by
        cases a <;> simp_all [Value.isLogical]
      subst ha
      obtain ⟨d, rfl⟩ := logicalFortran_left h
      exact follows_value rfl (iff_of_true rfl id)
    · rw [binaryOutcome, if_neg (by tauto)]
      refine follows_none ?_
      rw [binaryValue, isBool_some, isBool_some, if_neg, if_neg]
      · rintro ⟨hop, hb | hb⟩
        · exact hor ⟨hop, hb⟩
        · cases hb
      · rintro ⟨hop, hb | hb⟩
        · exact hand ⟨hop, hb⟩
        · cases hb
      · rintro _ _ - hb
        cases hb

/-- A right operand that decides the operation alone. -/
theorem binaryValue_right {b : Scalar P} {l w : Value P}
    (h : binaryFortran op l b.value = some w) :
    Follows (binaryValue op none (some b))
      (binaryOutcome op (some l) (some b.value) .none .value)
      (fun v => v.value = w ↔ ¬BinaryMismatch op l b.value) := by
  by_cases hand : op = .and ∧ Value.isLogical false (some b.value)
  · obtain ⟨rfl, hb⟩ := hand
    have hb : b = .bool false := by
      cases b <;> simp_all [Value.isLogical]
    subst hb
    obtain ⟨d, rfl⟩ := logicalFortran_right h
    refine follows_value rfl (iff_of_true ?_ id)
    rw [Bool.and_false, Scalar.value_bool]
  · by_cases hor : op = .or ∧ Value.isLogical true (some b.value)
    · obtain ⟨rfl, hb⟩ := hor
      have hb : b = .bool true := by
        cases b <;> simp_all [Value.isLogical]
      subst hb
      obtain ⟨d, rfl⟩ := logicalFortran_right h
      refine follows_value rfl (iff_of_true ?_ id)
      rw [Bool.or_true, Scalar.value_bool]
    · rw [binaryOutcome, if_neg (by tauto)]
      refine follows_none ?_
      rw [binaryValue, isBool_some, isBool_some, if_neg, if_neg]
      · rintro ⟨hop, hb | hb⟩
        · cases hb
        · exact hor ⟨hop, hb⟩
      · rintro ⟨hop, hb | hb⟩
        · cases hb
        · exact hand ⟨hop, hb⟩
      · rintro _ _ hb
        cases hb

/-- **A binary node** follows its outcome when its operands do. -/
theorem binaryValue_follows {rl rr : Result P} {ol oR : Outcome}
    {wl wr w : Value P} (hl : Follows rl ol fun v => v.value = wl)
    (hr : Follows rr oR fun v => v.value = wr) (h : binaryFortran op wl wr = some w) :
    Follows (do binaryValue op (← rl) (← rr))
      (binaryOutcome op (some wl) (some wr) ol oR)
      (fun v => v.value = w ↔ ¬BinaryMismatch op wl wr) := by
  rcases ol with _ | _ | _
  case raises =>
    obtain ⟨x, rfl⟩ := hl
    exact follows_raises rfl
  all_goals rcases oR with _ | _ | _
  case value.raises =>
    obtain ⟨a, rfl, -⟩ := hl
    obtain ⟨x, rfl⟩ := hr
    exact follows_raises rfl
  case none.raises =>
    obtain ⟨x, rfl⟩ := hr
    rw [show rl = .ok none from hl]
    exact follows_raises rfl
  case value.value =>
    obtain ⟨a, rfl, rfl⟩ := hl
    obtain ⟨b, rfl, rfl⟩ := hr
    by_cases hneg : negativePower op (some a.value) (some b.value)
    · rw [binaryOutcome, if_pos hneg]
      obtain ⟨x, hx⟩ := binaryValue_negativePower hneg
      exact follows_raises hx
    · rw [binaryOutcome, if_neg hneg]
      obtain ⟨v, hv, hiff⟩ := binaryValue_both h hneg
      exact follows_value hv hiff
  case value.none =>
    obtain ⟨a, rfl, rfl⟩ := hl
    rw [show rr = .ok none from hr]
    exact binaryValue_left h
  case none.value =>
    obtain ⟨b, rfl, rfl⟩ := hr
    rw [show rl = .ok none from hl]
    exact binaryValue_right h
  case none.none =>
    rw [show rl = .ok none from hl, show rr = .ok none from hr]
    refine follows_none ?_
    cases op <;> rfl

end ConstEval
