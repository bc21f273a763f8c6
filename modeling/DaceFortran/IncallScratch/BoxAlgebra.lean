/-
# Boxes with symbolic bounds

The comparisons and the box operations of `substitute/incall_scratch.py`: `Facts.nonneg`,
`_subtract`, `_subtract_all`, `_hull`, `covered` and `_write_union`.  The expressions are those of
the algebra system, a third-party package, and so a parameter.
-/
import DaceFortran.Lib.SymbolicExpr
import DaceFortran.Lib.Fallible

namespace IncallScratch

open SymbolicExpr

variable {V E : Type} [DecidableEq V] [SymbolicExpr V E]

/-- The range of a variable (inclusive; `none`: unbounded). -/
structure VarRange (V E : Type) where
  var : V
  lo : Option E
  hi : Option E

/-- `Facts`: the ranges, outermost first, and the combinations of values of the other symbols. -/
structure Facts (V E : Type) where
  ranges : List (VarRange V E)
  cases : List (List (V × ℤ))

/-- A box: the bounds of each dimension, both inclusive. -/
abbrev Box (E : Type) := List (E × E)

namespace Facts

/-- One round of `nonneg`: the variable at the end of its range where `e` is least. -/
def lowestIn (r : VarRange V E) (e : E) : Option E :=
  if r.var ∉ freeSymbols e then some e
  else
    let c := coeff e r.var
    let rest := expand (e - c * symbol r.var)
    if !isNumber c || decide (r.var ∈ freeSymbols rest) then none
    else (if positive c then r.lo else r.hi).map fun bound => expand (rest + c * bound)

/-- The loop of `nonneg`, over the variables innermost first. -/
def lowest : List (VarRange V E) → E → Option E
  | [], e => some e
  | r :: rs, e => (lowestIn r e).bind (lowest rs)

/-- Whether `e` is a nonnegative number in a case. -/
def nonnegIn (e : E) (case : List (V × ℤ)) : Bool :=
  let value := xreplace e fun s => case.lookup s
  isNumber value && nonnegative value

/-- `e >= 0` over the cases; the names of `e` have a value in each. -/
def nonnegCases (cases : List (List (V × ℤ))) (e : E) : Bool :=
  if isNumber e then nonnegative e
  else if cases.isEmpty || cases.any
    (fun case => decide (∃ s ∈ freeSymbols e, (case.lookup s).isNone)) then false
  else cases.all (nonnegIn e)

/-- `Facts.nonneg`. -/
def nonneg (facts : Facts V E) (expr : E) : Bool :=
  match lowest facts.ranges.reverse (expand expr) with
  | none => false
  | some e => nonnegCases facts.cases e

/-- `Facts.le`. -/
def le (facts : Facts V E) (a b : E) : Bool := facts.nonneg (b - a)

/-- `Facts.lt`. -/
def lt (facts : Facts V E) (a b : E) : Bool := facts.nonneg (b - a - int 1)

end Facts

/-- Whether some dimension shows `r` and `w` to be disjoint. -/
def apart (facts : Facts V E) (r w : Box E) : Bool :=
  (r.zip w).any fun d => facts.lt d.1.2 d.2.1 || facts.lt d.2.2 d.1.1

/-- The dimensions of `_subtract` from one on; `pre` is `cur` before it, cut to `w`. -/
def subtractFrom (facts : Facts V E) : Box E → Box E → Box E → Option (List (Box E))
  | _, _, [] => some []
  | _, [], _ :: _ => none
  | pre, (rl, rh) :: r, (wl, wh) :: w =>
    let below := facts.le wl rl
    let above := facts.le rh wh
    if !below && !facts.lt rl wl then none
    else if !above && !facts.lt wh rh then none
    else
      let cut := (if below then rl else wl, if above then rh else wh)
      (subtractFrom facts (pre ++ [cut]) r w).map fun pieces =>
        (if below then [] else [pre ++ (rl, wl - int 1) :: r]) ++
          (if above then [] else [pre ++ (wh + int 1, rh) :: r]) ++ pieces

/-- `_subtract`: `r` minus `w`, or `none` when a comparison it needs is undecided. -/
def subtract (facts : Facts V E) (r w : Box E) : Option (List (Box E)) :=
  if apart facts r w then some [r] else subtractFrom facts [] r w

/-- A box provably empty for every value in range. -/
def provablyEmpty (facts : Facts V E) (b : Box E) : Bool := b.any fun d => facts.lt d.2 d.1

/-- One box of `written` taken away from all that remains. -/
def subtractOne (facts : Facts V E) (w : Box E) (remaining : List (Box E)) : List (Box E) :=
  let next := remaining.flatMap fun b =>
    if w.length = b.length then (subtract facts b w).getD [b] else [b]
  next.filter fun b => !provablyEmpty facts b

/-- `_subtract_all`. -/
def subtractAll (facts : Facts V E) : List (Box E) → List (Box E) → List (Box E)
  | boxes, [] => boxes
  | boxes, w :: written =>
    let remaining := subtractOne facts w boxes
    if remaining.isEmpty then remaining else subtractAll facts remaining written

/-- `_extreme`. -/
def extreme (e : E) (var : V) (lo hi : E) (low : Bool) : Option E :=
  if var ∉ freeSymbols e then some e
  else
    let c := coeff (expand e) var
    let rest := expand (e - c * symbol var)
    if !isNumber c || decide (var ∈ freeSymbols rest) then none
    else some (expand (rest + c * if positive c == low then lo else hi))

/-- `_hull`: the smallest box that holds the box for every value of `var`. -/
def hull (var : V) (lo hi : E) (box : Box E) : Option (Box E) :=
  box.mapM fun d =>
    match extreme d.1 var lo hi true, extreme d.2 var lo hi false with
    | some a, some b => some (a, b)
    | _, _ => none

/-- `_mentions`, of one symbol. -/
def mentions (var : V) (box : Box E) : Bool :=
  box.any fun d => decide (var ∈ freeSymbols d.1 ∪ freeSymbols d.2)

/-- The loop of `covered` over the variables, innermost first. -/
def coveredFrom (facts : Facts V E) : List (VarRange V E) → List (Box E) → List (Box E) → Bool
  | [], remaining, _ => remaining.isEmpty
  | r :: rs, remaining, written =>
    if remaining.isEmpty then true
    else if !remaining.any (mentions r.var) then coveredFrom facts rs remaining written
    else
      match r.lo, r.hi with
      | some lo, some hi =>
        match remaining.mapM (hull r.var lo hi) with
        | none => false
        | some hulls =>
          let written := written.filter fun w => !mentions r.var w
          coveredFrom facts rs (subtractAll facts hulls written) written
      | _, _ => false

/-- `covered`. -/
def covered (facts : Facts V E) (r : Box E) (written : List (Box E)) : Bool :=
  coveredFrom facts facts.ranges.reverse (subtractAll facts [r] written) written

variable [DecidableEq E]

/-- The dimensions of `_write_union`; `used`: a dimension before has named the variable. -/
def unionFrom (facts : Facts V E) (var : V) (lo hi : E) : Bool → Box E → Option (Box E)
  | _, [] => some []
  | used, (a, b) :: box =>
    if var ∉ freeSymbols a ∪ freeSymbols b then (unionFrom facts var lo hi used box).map
      ((a, b) :: ·)
    else if used then none
    else
      let ca := coeff (expand a) var
      let cb := coeff (expand b) var
      let ra := expand (a - ca * symbol var)
      let rb := expand (b - cb * symbol var)
      if decide (var ∈ freeSymbols ra ∪ freeSymbols rb) || decide (ca ≠ cb) ||
        decide (ca ≠ int 1 ∧ ca ≠ int (-1))
      then none
      else if !facts.le ra rb then none
      else
        let d := if ca = int 1 then (expand (ra + lo), expand (rb + hi))
          else (expand (ra - hi), expand (rb - lo))
        (unionFrom facts var lo hi true box).map (d :: ·)

/-- `_write_union`. -/
def writeUnion (facts : Facts V E) (var : V) (lo hi : Option E) (box : Box E) : Option (Box E) :=
  if !mentions var box then some box
  else
    match lo, hi with
    | some lo, some hi => if facts.le lo hi then unionFrom facts var lo hi false box else none
    | _, _ => none

/-! ## What the operations are for -/

/-- A variable lies in its range. -/
def VarRange.Holds (r : VarRange V E) (env : V → ℤ) : Prop :=
  (∀ lo, r.lo = some lo → value lo env ≤ env r.var) ∧ ∀ hi, r.hi = some hi →
    (env r.var : ℚ) ≤ value hi env

/-- The environment gives the symbols of a case their values. -/
def Agrees (case : List (V × ℤ)) (env : V → ℤ) : Prop := ∀ s z, case.lookup s = some z → env s = z

/-- **The assignments meant**: the variables in their ranges, the other symbols as in some case. -/
structure Facts.Admits (facts : Facts V E) (env : V → ℤ) : Prop where
  ranges : ∀ r ∈ facts.ranges, r.Holds env
  cases : facts.cases ≠ [] → ∃ case ∈ facts.cases, Agrees case env

/-- The facts without the range of a variable. -/
def Facts.without (facts : Facts V E) (var : V) : Facts V E :=
  { facts with ranges := facts.ranges.filter fun r => decide (r.var ≠ var) }

/-- The integer points of a box. -/
def Box.Holds (box : Box E) (env : V → ℤ) (p : List ℤ) : Prop :=
  List.Forall₂ (fun (d : E × E) (x : ℤ) => value d.1 env ≤ x ∧ (x : ℚ) ≤ value d.2 env) box p

end IncallScratch

/-
# What the box operations keep

A comparison that is answered holds in every assignment the facts admit; what is left of a box after
a subtraction, and the hull of it, hold every point not written.
-/

namespace IncallScratch

open SymbolicExpr

variable {V E : Type} [DecidableEq V] [SymbolicExpr V E]

/-! ## Points -/

namespace Box

omit [DecidableEq V]

variable {env : V → ℤ}

theorem holds_cons {d : E × E} {box : Box E} {x : ℤ} {p : List ℤ} :
    Box.Holds (d :: box) env (x :: p) ↔ (value d.1 env ≤ x ∧ (x : ℚ) ≤ value d.2 env) ∧
      Box.Holds box env p :=
  List.forall₂_cons

theorem holds_append {a b : Box E} {p q : List ℤ} (h : a.length = p.length) :
    Box.Holds (a ++ b) env (p ++ q) ↔ Box.Holds a env p ∧ Box.Holds b env q := by
  induction a generalizing p with
  | nil =>
    obtain rfl := List.length_eq_zero_iff.mp h.symm
    simp [Box.Holds]
  | cons d a ih =>
    cases p with
    | nil => simp at h
    | cons x p => rw [List.cons_append, List.cons_append, holds_cons, holds_cons,
        ih (by simpa using h), ← and_assoc]

theorem Holds.length {box : Box E} {p : List ℤ} (h : Box.Holds box env p) : box.length = p.length :=
  List.Forall₂.length_eq h

end Box

variable [Lawful V E]

/-! ## Comparisons -/

section Comparisons

variable {facts : Facts V E} {env : V → ℤ}

variable {e e' : E}

omit [Lawful V E] in
/-- One round of `nonneg` that decides. -/
theorem lowestIn_cases {r : VarRange V E} (h : Facts.lowestIn r e = some e') :
    (r.var ∉ freeSymbols e ∧ e' = e) ∨
      (r.var ∈ freeSymbols e ∧ isNumber (coeff e r.var) = true ∧
        ∃ bound, (if positive (coeff e r.var) then r.lo else r.hi) = some bound ∧
          e' = expand (expand (e - coeff e r.var * symbol r.var) + coeff e r.var * bound)) := by
  unfold Facts.lowestIn at h
  by_cases hfree : r.var ∈ freeSymbols e
  · right
    rw [if_neg (not_not.mpr hfree)] at h
    by_cases hc : (!isNumber (coeff e r.var)
        || decide (r.var ∈ freeSymbols (expand (e - coeff e r.var * symbol r.var)))) = true
    · simp [hc] at h
    · simp only [hc, if_false, Bool.false_eq_true] at h
      simp only [Bool.or_eq_true, Bool.not_eq_true', not_or, Bool.not_eq_false] at hc
      obtain ⟨bound, hb, rfl⟩ := Option.map_eq_some_iff.mp h
      exact ⟨hfree, hc.1, bound, hb, rfl⟩
  · left
    rw [if_pos hfree] at h
    exact ⟨hfree, (Option.some.inj h).symm⟩

/-- An extreme value for a variable never raises the value. -/
theorem value_lowestIn_le {r : VarRange V E} (h : Facts.lowestIn r e = some e') (hr : r.Holds env) :
    value e' env ≤ value e env := by
  rcases lowestIn_cases h with ⟨-, rfl⟩ | ⟨-, hc, bound, hb, rfl⟩
  · exact le_rfl
  · rw [value_bound hc, value_rest e r.var hc env]
    -- the sign of the coefficient says which bound is the lower one
    have hbound : value (coeff e r.var) env * value bound env ≤
        value (coeff e r.var) env * env r.var := by
      by_cases hp : positive (coeff e r.var) = true
      · rw [if_pos hp] at hb
        exact mul_le_mul_of_nonneg_left (hr.1 _ hb) ((Lawful.positive_iff _ env hc).mp hp).le
      · rw [if_neg hp] at hb
        have hneg : value (coeff e r.var) env ≤ 0 :=
          not_lt.mp fun hlt => hp ((Lawful.positive_iff _ env hc).mpr hlt)
        exact mul_le_mul_of_nonpos_left (hr.2 _ hb) hneg
    linarith

theorem value_lowest_le {rs : List (VarRange V E)} (h : Facts.lowest rs e = some e')
    (hrs : ∀ r ∈ rs, r.Holds env) : value e' env ≤ value e env := by
  induction rs generalizing e with
  | nil =>
    obtain rfl := Option.some.inj h
    exact le_rfl
  | cons r rs ih =>
    obtain ⟨e₁, h₁, h⟩ := Option.bind_eq_some_iff.mp h
    exact (ih h fun s hs => hrs s (List.mem_cons_of_mem r hs)).trans
      (value_lowestIn_le h₁ (hrs r List.mem_cons_self))

theorem nonnegIn_sound {e : E} {case : List (V × ℤ)} (h : Facts.nonnegIn e case = true)
    (hcase : Agrees case env)
    (hnames : ∀ s ∈ freeSymbols e, (case.lookup s).isSome) : 0 ≤ value e env := by
  obtain ⟨hnum, hpos⟩ := Bool.and_eq_true_iff.mp h
  have hval := (Lawful.nonnegative_iff _ env hnum).mp hpos
  rw [Lawful.value_xreplace _ _ _ hnames] at hval
  have henv : value e (fun v => (case.lookup v).getD (env v)) = value e env := by
    apply Lawful.value_congr
    intro v hv
    obtain ⟨z, hz⟩ := Option.isSome_iff_exists.mp (hnames v hv)
    simp only [hz, Option.getD_some]
    exact (hcase v z hz).symm
  rwa [henv] at hval

theorem nonnegCases_sound {cases : List (List (V × ℤ))} {e : E}
    (h : Facts.nonnegCases cases e = true)
    (hcases : cases ≠ [] → ∃ case ∈ cases, Agrees case env) : 0 ≤ value e env := by
  unfold Facts.nonnegCases at h
  split_ifs at h with hnum hskip
  · exact (Lawful.nonnegative_iff _ env hnum).mp h
  · simp only [Bool.or_eq_true, List.isEmpty_iff, List.any_eq_true, decide_eq_true_eq,
      not_or, not_exists,
      not_and, Option.isNone_iff_eq_none] at hskip
    obtain ⟨case, hmem, hagrees⟩ := hcases hskip.1
    refine nonnegIn_sound (List.all_eq_true.mp h case hmem) hagrees fun s hs => ?_
    exact Option.isSome_iff_ne_none.mpr (hskip.2 case hmem s hs)

theorem nonneg_sound {e : E} (h : facts.nonneg e = true) (henv : facts.Admits env) :
    0 ≤ value e env := by
  unfold Facts.nonneg at h
  cases hlow : Facts.lowest facts.ranges.reverse (expand e) with
  | none => simp [hlow] at h
  | some e' =>
    rw [hlow] at h
    have hle := value_lowest_le hlow fun r hr => henv.ranges r (List.mem_reverse.mp hr)
    rw [Lawful.value_expand] at hle
    exact (nonnegCases_sound h henv.cases).trans hle

theorem le_sound {a b : E} (h : facts.le a b = true) (henv : facts.Admits env) :
    value a env ≤ value b env := by
  have := nonneg_sound h henv
  rw [Lawful.value_sub] at this
  linarith

theorem lt_sound {a b : E} (h : facts.lt a b = true) (henv : facts.Admits env) :
    value a env + 1 ≤ value b env := by
  have := nonneg_sound h henv
  rw [Lawful.value_sub, Lawful.value_sub, Lawful.value_int] at this
  push_cast at this
  linarith

end Comparisons

/-! ## Subtraction -/

/-- The bounds of a box are integers. -/
def Box.Integral (box : Box E) (env : V → ℤ) : Prop :=
  ∀ d ∈ box, (∃ z : ℤ, value d.1 env = z) ∧ ∃ z : ℤ, value d.2 env = z

theorem apart_sound {facts : Facts V E} {env : V → ℤ} (henv : facts.Admits env)
    {r w : Box E} {p : List ℤ}
    (h : apart facts r w = true) (hr : r.Holds env p) : ¬w.Holds env p := by
  intro hw
  induction r generalizing w p with
  | nil => simp [apart] at h
  | cons d r ih =>
    cases w with
    | nil => simp [apart] at h
    | cons d' w =>
      cases p with
      | nil => cases hr
      | cons x p =>
        rw [Box.holds_cons] at hr hw
        simp only [apart, List.zip_cons_cons, List.any_cons, Bool.or_eq_true] at h
        rcases h with (h | h) | h
        · have := lt_sound h henv
          linarith [hr.1.2, hw.1.1]
        · have := lt_sound h henv
          linarith [hw.1.2, hr.1.1]
        · exact ih h hr.2 hw.2

section Subtract

variable {facts : Facts V E} {env : V → ℤ} {pre r w : Box E} {pieces : List (Box E)}

/-- What `_subtract` decides in one dimension. -/
structure Decided (facts : Facts V E) (rl rh wl wh : E) : Prop where
  below : facts.le wl rl = false → facts.lt rl wl = true
  above : facts.le rh wh = false → facts.lt wh rh = true

/-- The dimension cut to `w`. -/
def cutTo (facts : Facts V E) (rl rh wl wh : E) : E × E :=
  (if facts.le wl rl then rl else wl, if facts.le rh wh then rh else wh)

omit [Lawful V E] in
/-- One dimension of `_subtract`. -/
theorem subtractFrom_cons {rl rh wl wh : E}
    (h : subtractFrom facts pre ((rl, rh) :: r) ((wl, wh) :: w) = some pieces) :
    Decided facts rl rh wl wh ∧
      ∃ rest, subtractFrom facts (pre ++ [cutTo facts rl rh wl wh]) r w = some rest ∧
      ∀ b, b ∈ pieces ↔ (facts.le wl rl = false ∧ b = pre ++ (rl, wl - int 1) :: r) ∨
        (facts.le rh wh = false ∧ b = pre ++ (wh + int 1, rh) :: r) ∨ b ∈ rest := by
  unfold subtractFrom at h
  by_cases hbelow : (!facts.le wl rl && !facts.lt rl wl) = true
  · simp [hbelow] at h
  by_cases habove : (!facts.le rh wh && !facts.lt wh rh) = true
  · simp [hbelow, habove] at h
  simp only [hbelow, habove, if_false, Bool.false_eq_true] at h
  simp only [Bool.and_eq_true, Bool.not_eq_true', not_and, Bool.not_eq_false] at hbelow habove
  obtain ⟨rest, hrest, rfl⟩ := Option.map_eq_some_iff.mp h
  refine ⟨⟨hbelow, habove⟩, rest, hrest, fun b => ?_⟩
  cases facts.le wl rl <;> cases facts.le rh wh <;> simp

theorem cutTo_sound (henv : facts.Admits env) {rl rh wl wh : E}
    (hd : Decided facts rl rh wl wh) (x : ℤ) :
    (value (cutTo facts rl rh wl wh).1 env ≤ x ∧ (x : ℚ) ≤ value (cutTo facts rl rh wl wh).2 env) ↔
      (value rl env ≤ x ∧ (x : ℚ) ≤ value rh env) ∧ value wl env ≤ x ∧ (x : ℚ) ≤ value wh env := by
  have hlow : value (cutTo facts rl rh wl wh).1 env ≤ x ↔ value rl env ≤ x ∧ value wl env ≤ x := by
    show value (if facts.le wl rl then rl else wl) env ≤ x ↔ _
    split_ifs with h
    · have := le_sound h henv
      exact ⟨fun hx => ⟨hx, this.trans hx⟩, fun hx => hx.1⟩
    · have := lt_sound (hd.below (Bool.eq_false_of_not_eq_true h)) henv
      exact ⟨fun hx => ⟨by linarith, hx⟩, fun hx => hx.2⟩
  have hhigh : (x : ℚ) ≤ value (cutTo facts rl rh wl wh).2 env ↔ (x : ℚ) ≤ value rh env ∧
      (x : ℚ) ≤ value wh env := by
    show (x : ℚ) ≤ value (if facts.le rh wh then rh else wh) env ↔ _
    split_ifs with h
    · have := le_sound h henv
      exact ⟨fun hx => ⟨hx, hx.trans this⟩, fun hx => hx.1⟩
    · have := lt_sound (hd.above (Bool.eq_false_of_not_eq_true h)) henv
      exact ⟨fun hx => ⟨by linarith, hx⟩, fun hx => hx.2⟩
  rw [hlow, hhigh]
  tauto

variable {p q : List ℤ} {b : Box E}

/-- **No point is lost**: a point of `r` outside `w` is in some piece. -/
theorem subtractFrom_covers (henv : facts.Admits env) (hw : w.Integral env)
    (hlen : r.length = w.length)
    (h : subtractFrom facts pre r w = some pieces) (hp : pre.Holds env p) (hr : r.Holds env q)
    (hq : ¬w.Holds env q) : ∃ b ∈ pieces, b.Holds env (p ++ q) := by
  induction w generalizing pre r pieces p q with
  | nil =>
    obtain rfl := List.length_eq_zero_iff.mp hlen
    exact absurd hr hq
  | cons d w ih =>
    cases hr with
    | nil => simp at hlen
    | @cons d' x r q hx hr =>
      obtain ⟨hd, rest, hrest, hmem⟩ := subtractFrom_cons h
      obtain ⟨⟨zl, hzl⟩, ⟨zh, hzh⟩⟩ := hw d List.mem_cons_self
      have hp' := hp.length
      by_cases hlow : (x : ℚ) < value d.1 env
      · refine ⟨_, (hmem _).mpr (.inl ⟨?_, rfl⟩),
          (Box.holds_append hp').mpr ⟨hp, Box.holds_cons.mpr ⟨⟨hx.1, ?_⟩, hr⟩⟩⟩
        · by_contra hle
          have := le_sound (Bool.eq_true_of_not_eq_false hle) henv
          linarith [hx.1]
        · rw [hzl] at hlow
          have : x + 1 ≤ zl := Int.cast_lt.mp hlow
          rw [Lawful.value_sub, Lawful.value_int, hzl]
          have : ((x + 1 : ℤ) : ℚ) ≤ zl := Int.cast_le.mpr this
          push_cast at this ⊢
          linarith
      · by_cases hhigh : value d.2 env < (x : ℚ)
        · refine ⟨_, (hmem _).mpr (.inr (.inl ⟨?_, rfl⟩)),
            (Box.holds_append hp').mpr ⟨hp, Box.holds_cons.mpr ⟨⟨?_, hx.2⟩, hr⟩⟩⟩
          · by_contra hle
            have := le_sound (Bool.eq_true_of_not_eq_false hle) henv
            linarith [hx.2]
          · rw [hzh] at hhigh
            have : zh + 1 ≤ x := Int.cast_lt.mp hhigh
            rw [Lawful.value_add, Lawful.value_int, hzh]
            have : ((zh + 1 : ℤ) : ℚ) ≤ x := Int.cast_le.mpr this
            push_cast at this ⊢
            linarith
        · have hin : value d.1 env ≤ x ∧ (x : ℚ) ≤ value d.2 env :=
            ⟨not_lt.mp hlow, not_lt.mp hhigh⟩
          have hcut := (cutTo_sound henv hd x).mpr ⟨hx, hin⟩
          have hpre : Box.Holds (pre ++ [cutTo facts d'.1 d'.2 d.1 d.2]) env (p ++ [x]) :=
            (Box.holds_append hp').mpr ⟨hp, Box.holds_cons.mpr ⟨hcut, .nil⟩⟩
          obtain ⟨b, hb, hholds⟩ :=
            ih (fun d hd => hw d (List.mem_cons_of_mem _ hd)) (by simpa using hlen) hrest hpre hr
            fun hw' => hq (Box.holds_cons.mpr ⟨hin, hw'⟩)
          rw [List.append_assoc] at hholds
          exact ⟨b, (hmem b).mpr (.inr (.inr hb)), hholds⟩

omit [Lawful V E] in
/-- Every piece has the rank of the box. -/
theorem subtractFrom_length (h : subtractFrom facts pre r w = some pieces) (hb : b ∈ pieces) :
    b.length = pre.length + r.length := by
  induction w generalizing pre r pieces with
  | nil =>
    obtain rfl := Option.some.inj (by simpa [subtractFrom] using h)
    simp at hb
  | cons d w ih =>
    cases r with
    | nil => simp [subtractFrom] at h
    | cons d' r =>
      obtain ⟨-, rest, hrest, hmem⟩ := subtractFrom_cons h
      rcases (hmem b).mp hb with ⟨-, rfl⟩ | ⟨-, rfl⟩ | hb
      · simp
      · simp
      · rw [ih hrest hb, List.length_append, List.length_cons]
        simp only [List.length_nil, List.length_cons]
        omega

omit [Lawful V E] in
/-- The pieces lie over the dimensions cut before. -/
theorem subtractFrom_before (h : subtractFrom facts pre r w = some pieces) (hb : b ∈ pieces)
    (hp : pre.length = p.length) (hq : r.length = q.length) (hholds : b.Holds env (p ++ q)) :
    pre.Holds env p := by
  induction w generalizing pre r pieces p q with
  | nil =>
    obtain rfl := Option.some.inj (by simpa [subtractFrom] using h)
    simp at hb
  | cons d w ih =>
    cases r with
    | nil => simp [subtractFrom] at h
    | cons d' r =>
      obtain ⟨-, rest, hrest, hmem⟩ := subtractFrom_cons h
      rcases (hmem b).mp hb with ⟨-, rfl⟩ | ⟨-, rfl⟩ | hb
      · exact ((Box.holds_append hp).mp hholds).1
      · exact ((Box.holds_append hp).mp hholds).1
      · cases q with
        | nil => simp at hq
        | cons x q =>
          have hcut := ih hrest hb (p := p ++ [x]) (by simp [hp]) (by simpa using hq)
            (by simpa using hholds)
          exact ((Box.holds_append hp).mp hcut).1

/-- **Where a piece stays inside `r`**: `w` is not beyond an end of `r` by more than one, as far as
the dimensions before overlap and those after are not empty. -/
def Touches (facts : Facts V E) (env : V → ℤ) : Box E → Box E → Prop
  | (rl, rh) :: r, (wl, wh) :: w =>
    ((∃ q, Box.Holds r env q) →
      (facts.le wl rl = false → value wl env ≤ value rh env + 1) ∧
        (facts.le rh wh = false → value rl env ≤ value wh env + 1)) ∧
    ((∃ x : ℤ, (value rl env ≤ x ∧ (x : ℚ) ≤ value rh env) ∧ value wl env ≤ x ∧
      (x : ℚ) ≤ value wh env) →
      Touches facts env r w)
  | _, _ => True

/-- Where `r` and `w` touch, the pieces are inside `r` and outside `w`. -/
theorem subtractFrom_inside (henv : facts.Admits env) (h : subtractFrom facts pre r w = some pieces)
    (ht : Touches facts env r w) (hb : b ∈ pieces) (hp : pre.length = p.length)
    (hq : r.length = q.length) (hholds : b.Holds env (p ++ q)) :
    r.Holds env q ∧ ¬w.Holds env q := by
  induction w generalizing pre r pieces p q with
  | nil =>
    obtain rfl := Option.some.inj (by simpa [subtractFrom] using h)
    simp at hb
  | cons d w ih =>
    cases r with
    | nil => simp [subtractFrom] at h
    | cons d' r =>
      cases q with
      | nil => simp at hq
      | cons x q =>
        obtain ⟨hd, rest, hrest, hmem⟩ := subtractFrom_cons h
        rcases (hmem b).mp hb with ⟨hle, rfl⟩ | ⟨hle, rfl⟩ | hb
        · -- the piece below `w`
          have hpiece := Box.holds_cons.mp ((Box.holds_append hp).mp hholds).2
          have htouch := (ht.1 ⟨q, hpiece.2⟩).1 hle
          have hhigh := hpiece.1.2
          rw [Lawful.value_sub, Lawful.value_int] at hhigh
          push_cast at hhigh
          refine ⟨Box.holds_cons.mpr ⟨⟨hpiece.1.1, by linarith⟩, hpiece.2⟩, fun hw => ?_⟩
          linarith [(Box.holds_cons.mp hw).1.1]
        · -- the piece above it
          have hpiece := Box.holds_cons.mp ((Box.holds_append hp).mp hholds).2
          have htouch := (ht.1 ⟨q, hpiece.2⟩).2 hle
          have hlow := hpiece.1.1
          rw [Lawful.value_add, Lawful.value_int] at hlow
          push_cast at hlow
          refine ⟨Box.holds_cons.mpr ⟨⟨by linarith, hpiece.1.2⟩, hpiece.2⟩, fun hw => ?_⟩
          linarith [(Box.holds_cons.mp hw).1.2]
        · have hp' : (pre ++ [cutTo facts d'.1 d'.2 d.1 d.2]).length =
            (p ++ [x]).length := by simp [hp]
          have hq' : r.length = q.length := by simpa using hq
          have hholds' : b.Holds env ((p ++ [x]) ++ q) := by simpa using hholds
          have hcut := ((Box.holds_append hp).mp (subtractFrom_before hrest hb hp' hq' hholds')).2
          have hx := (cutTo_sound henv hd x).mp (Box.holds_cons.mp hcut).1
          have hin := ih hrest (ht.2 ⟨x, hx⟩) hb hp' hq' hholds'
          exact ⟨Box.holds_cons.mpr ⟨hx.1, hin.1⟩, fun hw => hin.2 (Box.holds_cons.mp hw).2⟩

/-- Where the pieces are inside `r`, `r` and `w` touch. -/
theorem touches_of_inside (henv : facts.Admits env) (hw : w.Integral env)
    (h : subtractFrom facts pre r w = some pieces)
    {p : List ℤ} (hp : pre.Holds env p) (hin : ∀ b ∈ pieces, ∀ q, b.Holds env (p ++ q) →
      r.Holds env q) :
    Touches facts env r w := by
  induction w generalizing pre r pieces p with
  | nil => cases r <;> trivial
  | cons d w ih =>
    cases r with
    | nil => trivial
    | cons d' r =>
      obtain ⟨hd, rest, hrest, hmem⟩ := subtractFrom_cons h
      obtain ⟨⟨zl, hzl⟩, ⟨zh, hzh⟩⟩ := hw d List.mem_cons_self
      refine ⟨fun ⟨q, hq⟩ => ⟨fun hle => ?_, fun hle => ?_⟩, fun ⟨x, hx⟩ => ?_⟩
      · -- the last point below `w` is in the piece
        have hlt := lt_sound (hd.below hle) henv
        have hpoint : Box.Holds ((d'.1, d.1 - int 1) :: r) env ((zl - 1) :: q) := by
          refine Box.holds_cons.mpr ⟨⟨?_, ?_⟩, hq⟩
          · push_cast
            linarith
          · rw [Lawful.value_sub, Lawful.value_int, hzl]
            push_cast
            exact le_rfl
        have hr := hin _ ((hmem _).mpr (.inl ⟨hle, rfl⟩)) _
          ((Box.holds_append hp.length).mpr ⟨hp, hpoint⟩)
        have hlast := (Box.holds_cons.mp hr).1.2
        push_cast at hlast
        linarith
      · have hlt := lt_sound (hd.above hle) henv
        have hpoint : Box.Holds ((d.2 + int 1, d'.2) :: r) env ((zh + 1) :: q) := by
          refine Box.holds_cons.mpr ⟨⟨?_, ?_⟩, hq⟩
          · rw [Lawful.value_add, Lawful.value_int, hzh]
            push_cast
            exact le_rfl
          · push_cast
            linarith
        have hr := hin _ ((hmem _).mpr (.inr (.inl ⟨hle, rfl⟩))) _
          ((Box.holds_append hp.length).mpr ⟨hp, hpoint⟩)
        have hfirst := (Box.holds_cons.mp hr).1.1
        push_cast at hfirst
        linarith
      · have hcut := (cutTo_sound henv hd x).mpr hx
        have hpre : Box.Holds (pre ++ [cutTo facts d'.1 d'.2 d.1 d.2]) env (p ++ [x]) :=
          (Box.holds_append hp.length).mpr ⟨hp, Box.holds_cons.mpr ⟨hcut, .nil⟩⟩
        refine ih (fun d hd => hw d (List.mem_cons_of_mem _ hd)) hrest hpre fun b hb q hholds => ?_
        have hr := hin b ((hmem b).mpr (.inr (.inr hb))) (x :: q) (by simpa using hholds)
        exact (Box.holds_cons.mp hr).2

/-- **What `_subtract` leaves**: no point of `r` outside `w` is lost. -/
theorem subtract_covers (henv : facts.Admits env) (hw : w.Integral env) (hlen : r.length = w.length)
    (h : subtract facts r w = some pieces) {p : List ℤ} (hr : r.Holds env p) (hp : ¬w.Holds env p) :
    ∃ b ∈ pieces, b.Holds env p := by
  unfold subtract at h
  split_ifs at h with hapart
  · obtain rfl := Option.some.inj h
    exact ⟨r, List.mem_singleton_self r, hr⟩
  · exact subtractFrom_covers henv hw hlen h .nil hr hp

/-- **Exactly `r` minus `w`** in an assignment: the boxes are apart, or they touch. -/
theorem subtract_exact_iff (henv : facts.Admits env) (hw : w.Integral env)
    (hlen : r.length = w.length)
    (h : subtract facts r w = some pieces) :
    (∀ p, (∃ b ∈ pieces, b.Holds env p) ↔ r.Holds env p ∧ ¬w.Holds env p) ↔
      apart facts r w = true ∨ Touches facts env r w := by
  have hcovers := fun p hr hp => subtract_covers (p := p) henv hw hlen h hr hp
  unfold subtract at h
  by_cases hapart : apart facts r w = true
  · rw [if_pos hapart] at h
    obtain rfl := Option.some.inj h
    refine iff_of_true (fun p => ?_) (.inl hapart)
    simp only [List.mem_singleton, exists_eq_left]
    exact ⟨fun hr => ⟨hr, apart_sound henv hapart hr⟩, fun hr => hr.1⟩
  · rw [if_neg hapart] at h
    simp only [hapart, Bool.false_eq_true, false_or]
    constructor
    · intro hexact
      exact touches_of_inside (p := []) henv hw h .nil fun b hb q hq =>
        ((hexact q).mp ⟨b, hb, hq⟩).1
    · intro ht p
      refine ⟨fun ⟨b, hb, hholds⟩ => ?_, fun hp => hcovers p hp.1 hp.2⟩
      have hlenp : r.length = p.length := by
        have := subtractFrom_length h hb
        simp only [List.length_nil, Nat.zero_add] at this
        rw [← this, hholds.length]
      exact subtractFrom_inside (p := []) henv h ht hb rfl hlenp hholds

end Subtract

/-! ## Coverage -/

section Covered

variable {facts : Facts V E} {env : V → ℤ} {boxes written : List (Box E)} {p : List ℤ}

/-- A point of one of the boxes. -/
def InSome (boxes : List (Box E)) (env : V → ℤ) (p : List ℤ) : Prop := ∃ b ∈ boxes, b.Holds env p

theorem not_holds_of_provablyEmpty (henv : facts.Admits env) {b : Box E}
    (h : provablyEmpty facts b = true) :
    ¬b.Holds env p := by
  intro hb
  induction hb with
  | nil => simp [provablyEmpty] at h
  | @cons d x b p hx _ ih =>
    rcases Bool.or_eq_true_iff.mp (by simpa only [provablyEmpty, List.any_cons] using h) with h | h
    · have := lt_sound h henv
      linarith [hx.1, hx.2]
    · exact ih h

/-- One box taken away loses only points of that box. -/
theorem inSome_subtractOne (henv : facts.Admits env) {w : Box E} (hw : w.Integral env)
    (hp : InSome boxes env p)
    (hnot : ¬w.Holds env p) : InSome (subtractOne facts w boxes) env p := by
  obtain ⟨b, hb, hholds⟩ := hp
  have hkept : ∀ c, c ∈ (if w.length = b.length then (subtract facts b w).getD [b] else [b]) →
    c.Holds env p →
      InSome (subtractOne facts w boxes) env p := by
    intro c hc hholds
    refine ⟨c, List.mem_filter.mpr ⟨List.mem_flatMap.mpr ⟨b, hb, hc⟩, ?_⟩, hholds⟩
    by_contra hempty
    exact not_holds_of_provablyEmpty henv (by simpa using hempty) hholds
  by_cases hlen : w.length = b.length
  · rw [if_pos hlen] at hkept
    cases hs : subtract facts b w with
    | none => exact hkept b (by simp [hs]) hholds
    | some pieces =>
      obtain ⟨c, hc, hch⟩ := subtract_covers henv hw hlen.symm hs hholds hnot
      exact hkept c (by simpa [hs] using hc) hch
  · rw [if_neg hlen] at hkept
    exact hkept b (List.mem_singleton_self b) hholds

/-- The loop of `_subtract_all`. -/
theorem inSome_subtractAll (henv : facts.Admits env) (hw : ∀ w ∈ written, w.Integral env)
    (hp : InSome boxes env p) :
    InSome written env p ∨ InSome (subtractAll facts boxes written) env p := by
  induction written generalizing boxes with
  | nil => exact .inr hp
  | cons w written ih =>
    by_cases hwp : w.Holds env p
    · exact .inl ⟨w, List.mem_cons_self, hwp⟩
    · have hone := inSome_subtractOne henv (hw w List.mem_cons_self) hp hwp
      simp only [subtractAll]
      split_ifs
      · exact .inr hone
      · rcases ih (fun w hm => hw w (List.mem_cons_of_mem _ hm)) hone with ⟨v, hv, h⟩ | h
        · exact .inl ⟨v, List.mem_cons_of_mem _ hv, h⟩
        · exact .inr h

/-- The extreme value of a bound over a range of the variable. -/
theorem extreme_sound {e lo hi e' : E} {var : V} {low : Bool}
    (h : extreme e var lo hi low = some e')
    (hlo : value lo env ≤ env var) (hhi : (env var : ℚ) ≤ value hi env) :
    if low then value e' env ≤ value e env else value e env ≤ value e' env := by
  unfold extreme at h
  by_cases hfree : var ∈ freeSymbols e
  · rw [if_neg (not_not.mpr hfree)] at h
    by_cases hc : (!isNumber (coeff (expand e) var)
        || decide (var ∈ freeSymbols (expand (e - coeff (expand e) var * symbol var)))) = true
    · simp [hc] at h
    · simp only [hc, if_false, Bool.false_eq_true] at h
      simp only [Bool.or_eq_true, Bool.not_eq_true', not_or, Bool.not_eq_false] at hc
      obtain rfl := Option.some.inj h
      rw [value_bound hc.1, value_rest e var hc.1 env]
      have hpos := Lawful.positive_iff (coeff (expand e) var) env hc.1
      generalize positive (coeff (expand e) var) = pos at hpos
      generalize value (coeff (expand e) var) env = c at hpos
      cases pos with
      | true =>
        have hc : 0 < c := hpos.mp rfl
        cases low <;> simp only [beq_true, beq_false, Bool.not_true, if_true, if_false,
          Bool.false_eq_true]
        · linarith [mul_le_mul_of_nonneg_left hhi hc.le]
        · linarith [mul_le_mul_of_nonneg_left hlo hc.le]
      | false =>
        have hc : c ≤ 0 := not_lt.mp fun hlt => by simpa using hpos.mpr hlt
        cases low <;> simp only [beq_true, beq_false, Bool.not_false, if_true, if_false,
          Bool.false_eq_true]
        · linarith [mul_le_mul_of_nonpos_left hlo hc]
        · linarith [mul_le_mul_of_nonpos_left hhi hc]
  · rw [if_pos hfree] at h
    obtain rfl := Option.some.inj h
    cases low <;> simp

/-- The hull holds the box. -/
theorem hull_holds {var : V} {lo hi : E} {box h : Box E} (hh : hull var lo hi box = some h)
    (hlo : value lo env ≤ env var) (hhi : (env var : ℚ) ≤ value hi env) (hp : box.Holds env p) :
    h.Holds env p := by
  induction hp generalizing h with
  | nil =>
    obtain rfl : [] = h := by simpa [hull] using hh
    exact .nil
  | @cons d x box p hx _ ih =>
    simp only [hull, List.mapM_cons] at hh
    cases ha : extreme d.1 var lo hi true with
    | none => simp [ha] at hh
    | some a =>
      cases hb : extreme d.2 var lo hi false with
      | none => simp [ha, hb] at hh
      | some b =>
        simp only [ha, hb, Option.pure_def, Option.bind_eq_bind, Option.bind_some] at hh
        obtain ⟨t, ht, heq⟩ := Option.bind_eq_some_iff.mp hh
        obtain rfl := Option.some.inj heq
        have hlow := extreme_sound ha hlo hhi
        have hhigh := extreme_sound hb hlo hhi
        simp only [if_true, if_false, Bool.false_eq_true] at hlow hhigh
        exact Box.holds_cons.mpr ⟨⟨hlow.trans hx.1, hx.2.trans hhigh⟩, ih ht⟩

/-- The loop of `covered`: what remains is within `written`. -/
theorem coveredFrom_sound (henv : facts.Admits env) {rs : List (VarRange V E)}
    (hrs : ∀ r ∈ rs, r.Holds env)
    (hw : ∀ w ∈ written, w.Integral env) (h : coveredFrom facts rs boxes written = true)
    (hp : InSome boxes env p) :
    InSome written env p := by
  induction rs generalizing boxes written with
  | nil =>
    obtain ⟨b, hb, -⟩ := hp
    rw [List.isEmpty_iff.mp (show boxes.isEmpty = true from h)] at hb
    simp at hb
  | cons r rs ih =>
    have hrs' := fun s hs => hrs s (List.mem_cons_of_mem r hs)
    unfold coveredFrom at h
    split_ifs at h with hempty hmentions
    · obtain ⟨b, hb, -⟩ := hp
      rw [List.isEmpty_iff.mp hempty] at hb
      simp at hb
    · exact ih hrs' hw h hp
    · cases hlo : r.lo with
      | none => simp [hlo] at h
      | some lo =>
        cases hhi : r.hi with
        | none => simp [hlo, hhi] at h
        | some hi =>
          simp only [hlo, hhi] at h
          cases hm : boxes.mapM (hull r.var lo hi) with
          | none => simp [hm] at h
          | some hulls =>
            simp only [hm] at h
            have hr := hrs r List.mem_cons_self
            obtain ⟨b, hb, hholds⟩ := hp
            obtain ⟨c, hc, hch⟩ := Fallible.exists_mem_mapM hm hb
            have hhull : InSome hulls env p :=
              ⟨c, hc, hull_holds hch (hr.1 lo hlo) (hr.2 hi hhi) hholds⟩
            have hw' : ∀ w ∈ written.filter fun w => !mentions r.var w, w.Integral env :=
              fun w hmem => hw w (List.mem_of_mem_filter hmem)
            have hsub : ∀ {p}, InSome (written.filter fun w => !mentions r.var w) env p →
                InSome written env p :=
              fun ⟨w, hmem, h⟩ => ⟨w, List.mem_of_mem_filter hmem, h⟩
            rcases inSome_subtractAll henv hw' hhull with hin | hin
            · exact hsub hin
            · exact hsub (ih hrs' hw' h hin)

/-- **`covered` is sound**: every point of the box is in some box written. -/
theorem covered_sound (henv : facts.Admits env) (hw : ∀ w ∈ written, w.Integral env) {r : Box E}
    (h : covered facts r written = true) (hr : r.Holds env p) : InSome written env p := by
  rcases inSome_subtractAll henv hw ⟨r, List.mem_singleton_self r, hr⟩ with hin | hin
  · exact hin
  · exact coveredFrom_sound henv (fun s hs => henv.ranges s (List.mem_reverse.mp hs)) hw h hin

end Covered

end IncallScratch
