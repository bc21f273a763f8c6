/-
# When the box operations are exact

`_write_union` answers the union over a range that has a value; without the variable in the box it
does not ask for one.  `_subtract` answers more than `r` minus `w` where the two are apart and
no comparison shows it.
-/
import DaceFortran.IncallScratch.BoxAlgebra

open List

namespace IncallScratch

open SymbolicExpr

variable {V E : Type} [DecidableEq V] [SymbolicExpr V E]

/-! ## The facts without a variable -/

section Without

variable {facts : Facts V E} {var : V}

variable {rs : List (VarRange V E)}

variable {e e' : E}

/-- An unbounded variable never decides a comparison that is answered. -/
theorem lowest_without_unbounded (hrs : ∀ r ∈ rs, r.var = var → r.lo = none ∧ r.hi = none)
    (h : Facts.lowest rs e = some e') :
    Facts.lowest (rs.filter fun r => decide (r.var ≠ var)) e = some e' := by
  induction rs generalizing e with
  | nil => exact h
  | cons r rs ih =>
    have ih' := fun {e : E} (he : Facts.lowest rs e = some e') =>
      ih (fun s hs => hrs s (mem_cons_of_mem r hs)) he
    obtain ⟨e₁, h₁, h₂⟩ := Option.bind_eq_some_iff.mp h
    by_cases hvar : r.var = var
    · rw [filter_cons_of_neg (by simp [hvar])]
      rcases lowestIn_cases h₁ with ⟨-, rfl⟩ | ⟨-, -, bound, hb, -⟩
      · exact ih' h₂
      · obtain ⟨hlo, hhi⟩ := hrs r mem_cons_self hvar
        simp [hlo, hhi] at hb
    · rw [filter_cons_of_pos (by simpa using hvar)]
      exact Option.bind_eq_some_iff.mpr ⟨e₁, h₁, ih' h₂⟩

theorem nonneg_without_unbounded (hrs : ∀ r ∈ facts.ranges, r.var = var → r.lo = none ∧ r.hi = none)
    (h : facts.nonneg e = true) : (facts.without var).nonneg e = true := by
  unfold Facts.nonneg at h ⊢
  cases hlow : Facts.lowest facts.ranges.reverse (expand e) with
  | none => simp [hlow] at h
  | some e' =>
    rw [hlow] at h
    have := lowest_without_unbounded (fun r hr => hrs r (mem_reverse.mp hr)) hlow
    unfold Facts.without
    rw [← filter_reverse, this]
    exact h

variable [Lawful V E]

/-- No range but that of `var` names it. -/
def Outer (facts : Facts V E) (var : V) : Prop :=
  ∀ r ∈ facts.ranges, r.var ≠ var → ∀ e, r.lo = some e ∨ r.hi = some e → var ∉ freeSymbols e

/-- A round of `nonneg` never brings in a variable its range does not name. -/
theorem notMem_lowestIn {r : VarRange V E} (h : Facts.lowestIn r e = some e') (hvar : r.var ≠ var)
    (hr : ∀ e, r.lo = some e ∨ r.hi = some e → var ∉ freeSymbols e) (he : var ∉ freeSymbols e) :
    var ∉ freeSymbols e' := by
  rcases lowestIn_cases h with ⟨-, rfl⟩ | ⟨-, hc, bound, hb, rfl⟩
  · exact he
  · have hbound : var ∉ freeSymbols bound := by
      apply hr bound
      split_ifs at hb
      · exact .inl hb
      · exact .inr hb
    have hrest := notMem_expand
      (notMem_sub he (notMem_mul hc (notMem_symbol (E := E) (Ne.symm hvar))))
    exact notMem_expand (notMem_add hrest (notMem_mul hc hbound))

/-- A comparison that does not name the variable does not depend on its range. -/
theorem lowest_without
    (hrs : ∀ r ∈ rs, r.var ≠ var → ∀ e, r.lo = some e ∨ r.hi = some e → var ∉ freeSymbols e)
    (he : var ∉ freeSymbols e) :
    Facts.lowest (rs.filter fun r => decide (r.var ≠ var)) e = Facts.lowest rs e := by
  induction rs generalizing e with
  | nil => rfl
  | cons r rs ih =>
    have ih' := fun {e : E} (he : var ∉ freeSymbols e) =>
      ih (fun s hs => hrs s (mem_cons_of_mem r hs)) he
    by_cases hvar : r.var = var
    · rw [filter_cons_of_neg (by simp [hvar]), ih' he]
      have hskip : Facts.lowestIn r e = some e := if_pos (hvar ▸ he)
      rw [Facts.lowest, hskip, Option.bind_some]
    · rw [filter_cons_of_pos (by simpa using hvar), Facts.lowest, Facts.lowest]
      refine Option.bind_congr fun e₁ h₁ => ?_
      exact ih' (notMem_lowestIn h₁ hvar (hrs r mem_cons_self hvar) he)

theorem le_without (hout : Outer facts var) {a b : E} (ha : var ∉ freeSymbols a)
    (hb : var ∉ freeSymbols b) :
    (facts.without var).le a b = facts.le a b := by
  unfold Facts.le Facts.nonneg Facts.without
  rw [← filter_reverse, lowest_without (fun r hr => hout r (mem_reverse.mp hr))
    (notMem_expand (notMem_sub hb ha))]

end Without

/-! ## The union over a range -/

section Union

variable [Lawful V E] {facts : Facts V E} {env : V → ℤ} {var : V}

omit [Lawful V E] in
theorem mentions_cons {d : E × E} {box : Box E} :
    mentions var (d :: box) = false ↔ (var ∉ freeSymbols d.1 ∧ var ∉ freeSymbols d.2) ∧
      mentions var box = false := by
  simp [mentions]

/-- A box that does not name the variable does not depend on it. -/
theorem holds_assign {box : Box E} (h : mentions var box = false) {p : List ℤ} {z : ℤ} :
    box.Holds (assign env var z) p ↔ box.Holds env p := by
  induction box generalizing p with
  | nil => exact Iff.rfl.trans (by simp [Box.Holds])
  | cons d box ih =>
    obtain ⟨hd, hbox⟩ := mentions_cons.mp h
    cases p with
    | nil => simp [Box.Holds]
    | cons x p => rw [Box.holds_cons, Box.holds_cons, ih hbox, value_assign _ _ _ hd.1,
        value_assign _ _ _ hd.2]

variable {ra rb lo hi x : ℤ} {box u : Box E}

/-- Intervals that move by one leave no gap. -/
theorem union_up (hr : ra ≤ rb) (hrange : lo ≤ hi) :
    ra + lo ≤ x ∧ x ≤ rb + hi ↔ ∃ z, (lo ≤ z ∧ z ≤ hi) ∧ ra + z ≤ x ∧ x ≤ rb + z := by
  constructor
  · rintro ⟨hlo, hhi⟩
    by_cases h : x ≤ ra + hi
    · exact ⟨x - ra, by omega, by omega⟩
    · exact ⟨hi, by omega, by omega⟩
  · rintro ⟨z, hz, hx⟩
    omega

theorem union_down (hr : ra ≤ rb) (hrange : lo ≤ hi) :
    ra - hi ≤ x ∧ x ≤ rb - lo ↔ ∃ z, (lo ≤ z ∧ z ≤ hi) ∧ ra - z ≤ x ∧ x ≤ rb - z := by
  constructor
  · intro h
    obtain ⟨z, hz, hx⟩ := (union_up (x := x) hr (neg_le_neg hrange)).mp (by omega)
    exact ⟨-z, by omega, by omega⟩
  · rintro ⟨z, hz, hx⟩
    omega

variable {zlo zhi : ℤ} {a b : E}

/-- The value of a bound whose coefficient is a number. -/
theorem value_moved {s : ℤ} (hrest : var ∉ freeSymbols (expand (a - int s * symbol var))) (z : ℤ) :
    value a (assign env var z) = value (expand (a - int s * symbol var)) env + s * z := by
  rw [value_rest a var (Lawful.number_int s), value_assign _ _ _ hrest,
    Lawful.value_int, assign_same]

/-- What is left of an integer bound is an integer. -/
theorem rest_integral (var : V) (s : ℤ) (h : ∃ z : ℤ, value a env = z) :
    ∃ z : ℤ, value (expand (a - int s * symbol var)) env = z := by
  obtain ⟨z, hz⟩ := h
  refine ⟨z - s * env var, ?_⟩
  rw [Lawful.value_expand, Lawful.value_sub, Lawful.value_mul _ _ _ (Lawful.number_int s),
    Lawful.value_int,
    Lawful.value_symbol, hz]
  push_cast
  ring

/-- The dimension that names the variable: both bounds move with it, or against it. -/
structure Moves (facts : Facts V E) (var : V) (lo hi a b : E) (d : E × E) : Prop where
  sign : coeff (expand a) var = int 1 ∧ coeff (expand b) var = int 1 ∧
      d = (expand (expand (a - int 1 * symbol var) + lo),
        expand (expand (b - int 1 * symbol var) + hi)) ∨
    coeff (expand a) var = int (-1) ∧ coeff (expand b) var = int (-1) ∧
      d = (expand (expand (a - int (-1) * symbol var) - hi),
        expand (expand (b - int (-1) * symbol var) - lo))
  rest : var ∉ freeSymbols (expand (a - coeff (expand a) var * symbol var)) ∧
    var ∉ freeSymbols (expand (b - coeff (expand b) var * symbol var))
  le : facts.le (expand (a - coeff (expand a) var * symbol var))
    (expand (b - coeff (expand b) var * symbol var)) = true

theorem Moves.exact {lo hi : E} {d : E × E} (h : Moves facts var lo hi a b d)
    (hout : Outer facts var)
    (henv : (facts.without var).Admits env) (hlo : value lo env = zlo) (hhi : value hi env = zhi)
    (ha : ∃ z : ℤ, value a env = z) (hb : ∃ z : ℤ, value b env = z) (hrange : zlo ≤ zhi) (x : ℤ) :
    (value d.1 env ≤ x ∧ (x : ℚ) ≤ value d.2 env) ↔
      ∃ z : ℤ, (zlo ≤ z ∧ z ≤ zhi) ∧ value a (assign env var z) ≤ x ∧
        (x : ℚ) ≤ value b (assign env var z) := by
  have hle := h.le
  rw [← le_without hout h.rest.1 h.rest.2] at hle
  have hle := le_sound hle henv
  obtain ⟨hra, hrb⟩ := h.rest
  rcases h.sign with ⟨hca, hcb, rfl⟩ | ⟨hca, hcb, rfl⟩
  · rw [hca] at hra hle
    rw [hcb] at hrb hle
    obtain ⟨za, hza⟩ := rest_integral var 1 ha
    obtain ⟨zb, hzb⟩ := rest_integral var 1 hb
    simp only [value_moved hra, value_moved hrb, Lawful.value_expand (expand _ + _),
      Lawful.value_add, hza, hzb, hlo, hhi]
    rw [hza, hzb] at hle
    have := union_up (x := x) (Int.cast_le.mp hle) hrange
    norm_cast
    simpa using this
  · rw [hca] at hra hle
    rw [hcb] at hrb hle
    obtain ⟨za, hza⟩ := rest_integral var (-1) ha
    obtain ⟨zb, hzb⟩ := rest_integral var (-1) hb
    simp only [value_moved hra, value_moved hrb, Lawful.value_expand (expand _ - _),
      Lawful.value_sub (expand _), hza, hzb,
      hlo, hhi]
    rw [hza, hzb] at hle
    have := union_down (x := x) (Int.cast_le.mp hle) hrange
    norm_cast
    simpa [sub_eq_add_neg] using this

variable [DecidableEq E]

omit [Lawful V E] in
/-- After a dimension that names the variable no other may. -/
theorem unionFrom_used {lo hi : E} (h : unionFrom facts var lo hi true box = some u) :
    u = box ∧ mentions var box = false := by
  induction box generalizing u with
  | nil => exact ⟨(Option.some.inj h).symm, rfl⟩
  | cons d box ih =>
    unfold unionFrom at h
    by_cases hfree : var ∉ freeSymbols d.1 ∪ freeSymbols d.2
    · rw [if_pos hfree] at h
      obtain ⟨u', hu', rfl⟩ := Option.map_eq_some_iff.mp h
      obtain ⟨rfl, hm⟩ := ih hu'
      rw [Finset.mem_union, not_or] at hfree
      exact ⟨rfl, mentions_cons.mpr ⟨hfree, hm⟩⟩
    · rw [if_neg hfree] at h
      simp at h

omit [Lawful V E] in
theorem unionFrom_mentions {lo hi : E} (hfree : var ∈ freeSymbols a ∪ freeSymbols b)
    (h : unionFrom facts var lo hi false ((a, b) :: box) = some u) :
    ∃ d, Moves facts var lo hi a b d ∧ u = d :: box ∧ mentions var box = false := by
  unfold unionFrom at h
  rw [if_neg (not_not.mpr hfree), if_neg (by simp)] at h
  dsimp only at h
  split at h
  · cases h
  · rename_i hc
    split at h
    · cases h
    · rename_i hle
      obtain ⟨u', hu', rfl⟩ := Option.map_eq_some_iff.mp h
      obtain ⟨rfl, hm⟩ := unionFrom_used hu'
      simp only [Bool.or_eq_true, decide_eq_true_eq, not_or, Finset.mem_union,
        not_not, not_and] at hc
      refine ⟨_, ⟨?_, hc.1.1, by simpa using hle⟩, rfl, hm⟩
      have heq : coeff (expand a) var = coeff (expand b) var := hc.1.2
      by_cases hone : coeff (expand a) var = int 1
      · left
        rw [if_pos hone]
        exact ⟨hone, heq ▸ hone, by rw [← heq, hone]⟩
      · right
        have hneg := hc.2 hone
        rw [if_neg hone]
        exact ⟨hneg, heq ▸ hneg, by rw [← heq, hneg]⟩

/-- The loop of `_write_union` over the dimensions. -/
theorem unionFrom_exact {lo hi : E} (h : unionFrom facts var lo hi false box = some u)
    (hm : mentions var box = true) (hout : Outer facts var) (henv : (facts.without var).Admits env)
    (hlo : value lo env = zlo) (hhi : value hi env = zhi) (hbox : box.Integral env)
    (hrange : zlo ≤ zhi) (p : List ℤ) :
    u.Holds env p ↔ ∃ z : ℤ, (zlo ≤ z ∧ z ≤ zhi) ∧ box.Holds (assign env var z) p := by
  induction box generalizing u p with
  | nil => simp [mentions] at hm
  | cons d box ih =>
    by_cases hfree : var ∈ freeSymbols d.1 ∪ freeSymbols d.2
    · obtain ⟨d', hd', rfl, hrest⟩ := unionFrom_mentions hfree h
      obtain ⟨ha, hb⟩ := hbox d mem_cons_self
      cases p with
      | nil => simp [Box.Holds]
      | cons x p =>
        simp only [Box.holds_cons, holds_assign hrest]
        rw [hd'.exact hout henv hlo hhi ha hb hrange]
        constructor
        · rintro ⟨⟨z, hz, hx⟩, hp⟩
          exact ⟨z, hz, hx, hp⟩
        · rintro ⟨z, hz, hx, hp⟩
          exact ⟨⟨z, hz, hx⟩, hp⟩
    · have hfree' := hfree
      rw [Finset.mem_union, not_or] at hfree'
      unfold unionFrom at h
      rw [if_pos hfree] at h
      obtain ⟨u', hu', rfl⟩ := Option.map_eq_some_iff.mp h
      have hm' : mentions var box = true := by
        by_contra hno
        simp [mentions_cons.mpr ⟨hfree', by simpa using hno⟩] at hm
      cases p with
      | nil => simp [Box.Holds]
      | cons x p =>
        have htail := ih hu' hm' (fun d hd => hbox d (mem_cons_of_mem _ hd)) p
        simp only [Box.holds_cons, htail, value_assign _ _ _ hfree'.1, value_assign _ _ _ hfree'.2]
        constructor
        · rintro ⟨hx, z, hz, hp⟩
          exact ⟨z, hz, hx, hp⟩
        · rintro ⟨z, hz, hx, hp⟩
          exact ⟨hx, z, hz, hp⟩

end Union

/-! ## The operations together -/

section Exact

/-- A value of the range of a variable. -/
def InRange (lo hi : Option E) (env : V → ℤ) (z : ℤ) : Prop :=
  (∀ e, lo = some e → value e env ≤ z) ∧ ∀ e, hi = some e → (z : ℚ) ≤ value e env

variable [DecidableEq E]

/-- **The box algebra is sound** on given boxes: what is covered is written, a difference and a
union that are answered are exact, and what is answered never rests on an unbounded variable. -/
structure Sound (facts : Facts V E) (r : Box E) (written : List (Box E)) (w : Box E) (var : V)
    (lo hi : Option E)
    (box : Box E) : Prop where
  covers : covered facts r written = true → ∀ env, facts.Admits env → ∀ p, r.Holds env p →
    InSome written env p
  difference : ∀ pieces, subtract facts r w = some pieces → ∀ env, facts.Admits env →
    ∀ p, InSome pieces env p ↔ r.Holds env p ∧ ¬w.Holds env p
  union : ∀ u, writeUnion facts var lo hi box = some u → ∀ env, (facts.without var).Admits env →
    ∀ p, u.Holds env p ↔ ∃ z, InRange lo hi env z ∧ box.Holds (assign env var z) p
  unbounded : ∀ v, (∀ s ∈ facts.ranges, s.var = v → s.lo = none ∧ s.hi = none) →
    (∀ e, facts.nonneg e = true → (facts.without v).nonneg e = true) ∧
      (covered facts r written = true → ∀ env, (facts.without v).Admits env → ∀ p, r.Holds env p →
        InSome written env p) ∧
      ∀ u, writeUnion facts v none none box = some u → u = box ∧ mentions v box = false

/-- The boxes and the range are of one array and of one loop: the bounds are integers, and only
bounds of inner variables may name a variable. -/
structure WellFormed (facts : Facts V E) (r : Box E) (written : List (Box E)) (w : Box E) (var : V)
    (lo hi : Option E)
    (box : Box E) : Prop where
  rank : r.length = w.length
  written : ∀ b ∈ written, ∀ env, facts.Admits env → b.Integral env
  subtracted : ∀ env, facts.Admits env → w.Integral env
  box : ∀ env, (facts.without var).Admits env → box.Integral env
  range : ∀ e, lo = some e ∨ hi = some e →
    var ∉ freeSymbols e ∧ ∀ env, (facts.without var).Admits env → ∃ z : ℤ, value e env = z
  outer : Outer facts var

/-- A dimension in which `_subtract` has no answer. -/
def undecided (facts : Facts V E) (r w : Box E) : Bool :=
  (r.zip w).any fun d => (!facts.le d.2.1 d.1.1 && !facts.lt d.1.1 d.2.1) ||
    (!facts.le d.1.2 d.2.2 && !facts.lt d.2.2 d.1.2)

omit [DecidableEq E] in
theorem subtractFrom_eq_none_iff {facts : Facts V E} {pre r w : Box E}
    (hlen : r.length = w.length) :
    subtractFrom facts pre r w = none ↔ undecided facts r w = true := by
  induction w generalizing pre r with
  | nil =>
    obtain rfl := length_eq_zero_iff.mp hlen
    simp [subtractFrom, undecided]
  | cons d w ih =>
    cases r with
    | nil => simp at hlen
    | cons d' r =>
      have ih' := fun {pre : Box E} => @ih pre r (by simpa using hlen)
      simp only [subtractFrom, undecided, zip_cons_cons, any_cons] at ih' ⊢
      by_cases hbelow : (!facts.le d.1 d'.1 && !facts.lt d'.1 d.1) = true
      · simp [hbelow]
      · by_cases habove : (!facts.le d'.2 d.2 && !facts.lt d.2 d'.2) = true
        · simp [hbelow, habove]
        · simp only [hbelow, habove, if_false, Bool.false_eq_true, Option.map_eq_none_iff,
            ih', Bool.or_self,
            Bool.false_or]

/-- Where `_subtract` is exact: the boxes are seen to be apart, it has no answer, or they touch. -/
def SubtractsExactly (facts : Facts V E) (r w : Box E) : Prop :=
  apart facts r w = true ∨ undecided facts r w = true ∨ ∀ env, facts.Admits env →
    Touches facts env r w

/-- Where `_write_union` is exact: the box names the variable, or the range has a value wherever the
box has a point. -/
def UnionHasTurn (facts : Facts V E) (var : V) (lo hi : Option E) (box : Box E) : Prop :=
  mentions var box = true ∨
    ∀ env, (facts.without var).Admits env → (∃ z, InRange lo hi env z) ∨ ∀ p, ¬box.Holds env p

variable [Lawful V E] {facts : Facts V E} {r w box : Box E} {var : V} {lo hi : Option E}

omit [DecidableEq E] in
theorem subtract_exact_forall_iff (hlen : r.length = w.length)
    (hw : ∀ env, facts.Admits env → w.Integral env) :
    (∀ pieces, subtract facts r w = some pieces → ∀ env, facts.Admits env →
      ∀ p, InSome pieces env p ↔ r.Holds env p ∧ ¬w.Holds env p) ↔ SubtractsExactly facts r w := by
  constructor
  · intro hexact
    by_cases hapart : apart facts r w = true
    · exact .inl hapart
    · cases hs : subtractFrom facts [] r w with
      | none => exact .inr (.inl ((subtractFrom_eq_none_iff hlen).mp hs))
      | some pieces =>
        have hs' : subtract facts r w = some pieces := by rw [subtract, if_neg hapart, hs]
        refine .inr (.inr fun env henv => ?_)
        have := (subtract_exact_iff henv (hw env henv) hlen hs').mp (hexact pieces hs' env henv)
        exact this.resolve_left hapart
  · intro hcond pieces hs env henv
    refine (subtract_exact_iff henv (hw env henv) hlen hs).mpr ?_
    rcases hcond with h | h | h
    · exact .inl h
    · by_cases hapart : apart facts r w = true
      · exact .inl hapart
      · rw [subtract, if_neg hapart, (subtractFrom_eq_none_iff hlen).mpr h] at hs
        cases hs
    · exact .inr (h env henv)

theorem writeUnion_exact_iff (hbox : ∀ env, (facts.without var).Admits env → box.Integral env)
    (hrange : ∀ e, lo = some e ∨ hi = some e →
      var ∉ freeSymbols e ∧ ∀ env, (facts.without var).Admits env → ∃ z : ℤ, value e env = z)
    (hout : Outer facts var) :
    (∀ u, writeUnion facts var lo hi box = some u → ∀ env, (facts.without var).Admits env →
      ∀ p, u.Holds env p ↔ ∃ z, InRange lo hi env z ∧ box.Holds (assign env var z) p) ↔
      UnionHasTurn facts var lo hi box := by
  by_cases hm : mentions var box = true
  · refine iff_of_true (fun u hu env henv p => ?_) (.inl hm)
    unfold writeUnion at hu
    rw [if_neg (by simp [hm])] at hu
    cases lo with
    | none => cases hu
    | some lo =>
      cases hi with
      | none => cases hu
      | some hi =>
        by_cases hle : facts.le lo hi = true
        · simp only [hle, if_true] at hu
          obtain ⟨hflo, hlo⟩ := hrange lo (.inl rfl)
          obtain ⟨hfhi, hhi⟩ := hrange hi (.inr rfl)
          obtain ⟨zlo, hzlo⟩ := hlo env henv
          obtain ⟨zhi, hzhi⟩ := hhi env henv
          rw [← le_without hout hflo hfhi] at hle
          have hzle := le_sound hle henv
          rw [hzlo, hzhi] at hzle
          rw [unionFrom_exact hu hm hout henv hzlo hzhi (hbox env henv) (Int.cast_le.mp hzle)]
          simp [InRange, hzlo, hzhi]
        · simp [hle] at hu
  · have hm' : mentions var box = false := by simpa using hm
    have hu : writeUnion facts var lo hi box = some box := by
      unfold writeUnion
      rw [if_pos (by simp [hm'])]
    simp only [hu, Option.some.injEq, forall_eq', holds_assign hm']
    constructor
    · intro h
      refine .inr fun env henv => ?_
      by_cases hp : ∃ p, box.Holds env p
      · obtain ⟨p, hp⟩ := hp
        obtain ⟨z, hz, -⟩ := (h env henv p).mp hp
        exact .inl ⟨z, hz⟩
      · exact .inr fun p hholds => hp ⟨p, hholds⟩
    · intro h env henv p
      constructor
      · intro hp
        rcases (h.resolve_left hm) env henv with ⟨z, hz⟩ | hno
        · exact ⟨z, hz, hp⟩
        · exact absurd hp (hno p)
      · rintro ⟨_, _, hp⟩
        exact hp

omit [DecidableEq E] [Lawful V E] in
/-- An unbounded variable takes every value. -/
theorem admits_of_without (hv : ∀ s ∈ facts.ranges, s.var = var → s.lo = none ∧ s.hi = none)
    {env : V → ℤ}
    (h : (facts.without var).Admits env) : facts.Admits env := by
  refine ⟨fun s hs => ?_, h.cases⟩
  by_cases hsv : s.var = var
  · obtain ⟨hlo, hhi⟩ := hv s hs hsv
    exact ⟨by simp [hlo], by simp [hhi]⟩
  · exact h.ranges s (mem_filter.mpr ⟨hs, by simpa using hsv⟩)

/-- **When the box algebra is sound**: `covered` always is; `_subtract` and `_write_union` are exact
under their conditions, and only then. -/
theorem boxAlgebra_sound_iff {written : List (Box E)}
    (h : WellFormed facts r written w var lo hi box) :
    Sound facts r written w var lo hi box ↔ SubtractsExactly facts r w ∧
      UnionHasTurn facts var lo hi box := by
  have hcovers : covered facts r written = true → ∀ env, facts.Admits env → ∀ p, r.Holds env p →
      InSome written env p :=
    fun hc env henv _ hr => covered_sound henv (fun b hb => h.written b hb env henv) hc hr
  constructor
  · intro hs
    exact ⟨(subtract_exact_forall_iff h.rank h.subtracted).mp hs.difference,
      (writeUnion_exact_iff h.box h.range h.outer).mp hs.union⟩
  · rintro ⟨hsub, hunion⟩
    refine ⟨hcovers, (subtract_exact_forall_iff h.rank h.subtracted).mpr hsub,
      (writeUnion_exact_iff h.box h.range h.outer).mpr hunion,
        fun v hv => ⟨fun e he => ?_, fun hc env henv => ?_, ?_⟩⟩
    · exact nonneg_without_unbounded hv he
    · exact hcovers hc env (admits_of_without hv henv)
    · intro u hu
      unfold writeUnion at hu
      by_cases hm : mentions v box = true
      · simp [hm] at hu
      · rw [if_pos (by simpa using hm)] at hu
        exact ⟨(Option.some.inj hu).symm, by simpa using hm⟩

end Exact

/-! ## A loop that may have no turn -/

/-- The bound `n` of a loop and its variable `i`. -/
inductive LoopSymbol where
  | n | i
  deriving DecidableEq

instance : Fintype LoopSymbol := ⟨{.n, .i}, fun s => by cases s <;> decide⟩

/-- `n` is 0 in one case and 7 in the other. -/
def twoCases : Facts LoopSymbol (Affine LoopSymbol) where
  ranges := []
  cases := [[(.n, 0)], [(.n, 7)]]

/-- Element 5, whatever `i` is. -/
def fixedElement : Box (Affine LoopSymbol) := [(int 5, int 5)]

/-- Elements `0:n`, of which `5:9` are taken away. -/
def upToN : Box (Affine LoopSymbol) := [(int 0, symbol LoopSymbol.n)]

def fiveToNine : Box (Affine LoopSymbol) := [(int 5, int 9)]

theorem affine_integral (e : Affine LoopSymbol) (env : LoopSymbol → ℤ) : ∃ z : ℤ, value e env = z :=
  ⟨Affine.value e env, rfl⟩

theorem wellFormed_loop {facts : Facts LoopSymbol (Affine LoopSymbol)} (houter : Outer facts .i) :
    WellFormed facts upToN [fiveToNine] fiveToNine .i (some (int 1))
      (some (symbol .n)) fixedElement where
  rank := rfl
  written _ _ _ _ d _ := ⟨affine_integral d.1 _, affine_integral d.2 _⟩
  subtracted _ _ d _ := ⟨affine_integral d.1 _, affine_integral d.2 _⟩
  box _ _ d _ := ⟨affine_integral d.1 _, affine_integral d.2 _⟩
  range e he := by
    refine ⟨?_, fun env _ => affine_integral e env⟩
    rcases he with he | he <;> obtain rfl := Option.some.inj he <;> decide
  outer := houter

/-- `n` is 7. -/
def sevenTurns : Facts LoopSymbol (Affine LoopSymbol) where
  ranges := []
  cases := [[(.n, 7)]]

/-- With turns of the loop the box algebra is sound. -/
theorem boxAlgebra_sound_iff_loop :
    Sound sevenTurns upToN [fiveToNine] fiveToNine .i (some (int 1))
      (some (symbol .n)) fixedElement := by
  have hseven : ∀ env, (∃ case ∈ [[(LoopSymbol.n, (7 : ℤ))]], Agrees case env) → env .n = 7 := by
    rintro env ⟨case, hcase, hagrees⟩
    obtain rfl := List.mem_singleton.mp hcase
    exact hagrees .n 7 rfl
  refine (boxAlgebra_sound_iff (wellFormed_loop (by simp [Outer, sevenTurns]))).2
    ⟨.inr (.inr fun env henv => ?_), .inr fun env henv => .inl ⟨1, ?_, ?_⟩⟩
  · have hn := hseven env (henv.2 (by simp [sevenTurns]))
    refine ⟨fun _ => ⟨fun _ => ?_, fun _ => ?_⟩, fun _ => trivial⟩
    · rw [Lawful.value_int, Lawful.value_symbol, hn]
      norm_num
    · rw [Lawful.value_int, Lawful.value_int]
      norm_num
  · intro e he
    obtain rfl := Option.some.inj he
    rw [Lawful.value_int]
  · intro e he
    obtain rfl := Option.some.inj he
    rw [Lawful.value_symbol, hseven env (henv.2 (by simp [sevenTurns, Facts.without]))]
    norm_num

/-- With `n` 0 the loop `1:n` writes nothing, and the union is said to hold element 5. -/
theorem not_sound_noTurn :
    ¬Sound twoCases upToN [fiveToNine] fiveToNine .i (some (int 1))
      (some (symbol .n)) fixedElement := by
  intro h
  have hcase : Agrees [(LoopSymbol.n, 0)] fun _ => 0 := by
    intro s z hs
    cases s with
    | n => exact Option.some.inj hs
    | i => cases hs
  have henv : (twoCases.without .i).Admits fun _ => 0 :=
    ⟨by simp [twoCases, Facts.without], fun _ => ⟨_, List.mem_cons_self, hcase⟩⟩
  have hpoint : Box.Holds fixedElement (fun _ => (0 : ℤ)) [5] :=
    .cons ⟨le_of_eq (Lawful.value_int 5 _), le_of_eq (Lawful.value_int 5 _).symm⟩ .nil
  obtain ⟨z, ⟨hlo, hhi⟩, -⟩ := (h.union fixedElement (by decide) _ henv [5]).mp hpoint
  have hlo := hlo _ rfl
  have hhi := hhi _ rfl
  rw [Lawful.value_int] at hlo
  rw [Lawful.value_symbol] at hhi
  push_cast at hlo hhi
  linarith

/-- What is left of `0:n` without `5:9` is `0:4`, also where `n` is 0. -/
example : subtract twoCases upToN fiveToNine = some [[(int 0, int 4)]] := by decide

end IncallScratch
