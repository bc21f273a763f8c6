/-
# `FoldAssumedRankQueries`

A box is built by a chain of operations, and each value of the chain has an array
type, which may have no rank.  The pass replaces the queries of a box by constants
it finds in the types along the chain.

A rank is right, since an operation whose result has no rank in its type keeps the
box.  An extent is the one of the nearest ancestor whose type has a literal, and
slices and new shapes in between change it; a lower bound is taken to be 1 and no
array to be assumed-size (**`foldsRight_iff`**).
-/
import Mathlib.Data.Int.Notation
import Mathlib.Data.List.Forall2
import DaceFortran.Lib.Ancestors

namespace AssumedRank

open Ancestors

/-! ## Boxes and their types -/

/-- A descriptor at run time. -/
structure Box where
  lowers : List ℤ
  extents : List ℕ
  assumedSize : Bool

/-- `fir.array<*:T>`, or the extents of a type with a rank: `none` where it has `?`. -/
inductive ArrayType
  | assumedRank
  | array (extents : List (Option ℕ))

/-- What a type says of a box: its rank and the extents with a literal. -/
def ArrayType.Describes : ArrayType → Box → Prop
  | .assumedRank, _ => True
  | .array extents, b => List.Forall₂ (fun e n => ∀ k, e = some k → k = n) extents b.extents

/-- A value with the chain of operations that defines it.  `fir.embox` and `fir.rebox` make a box of
a rank that the type has, by bounds and slices of their own; a conversion of an address sees the
storage with other dimensions, and one of a box changes its type alone. -/
inductive Value
  | root (type : ArrayType) (box : Box)
  | embox (memref : Value) (extents : List (Option ℕ)) (box : Box)
  | rebox (source : Value) (extents : List (Option ℕ)) (box : Box)
  | declare (memref : Value) (type : ArrayType) (lowers : List ℤ)
  | convert (value : Value) (type : ArrayType)
  | convertRef (value : Value) (extents : List (Option ℕ)) (box : Box)

namespace Value

def type : Value → ArrayType
  | root t _ | declare _ t _ | convert _ t => t
  | embox _ es _ | rebox _ es _ | convertRef _ es _ => .array es

def box : Value → Box
  | root _ b | embox _ _ b | rebox _ _ b | convertRef _ _ b => b
  | declare v _ lowers => { v.box with lowers := lowers }
  | convert v _ => v.box

/-- Every type along the chain describes its box. -/
def WellTyped : Value → Prop
  | root t b => t.Describes b
  | embox v es b | rebox v es b | convertRef v es b =>
      (ArrayType.array es).Describes b ∧ v.WellTyped
  | declare v t lowers => t.Describes { v.box with lowers := lowers } ∧ v.WellTyped
  | convert v t => t.Describes v.box ∧ v.WellTyped

theorem WellTyped.describes {v : Value} (h : v.WellTyped) : v.type.Describes v.box := by
  cases v with
  | root t b => exact h
  | _ => exact h.1

/-! ## The traces -/

/-- The operand behind `fir.convert`, `fir.rebox` and `hlfir.declare`. -/
def rankOperand : Value → Option Value
  | convert v _ | convertRef v _ _ | rebox v _ _ | declare v _ _ => some v
  | embox _ _ _ | root _ _ => none

/-- The same, and behind `fir.embox`. -/
def extentOperand : Value → Option Value
  | convert v _ | convertRef v _ _ | rebox v _ _ | declare v _ _ | embox v _ _ => some v
  | root _ _ => none

def staticRank (v : Value) : Option ℕ :=
  match v.type with
  | .assumedRank => none
  | .array es => some es.length

/-- The literal extent of dimension `dim` in the type. -/
def staticExtent (dim : ℤ) (v : Value) : Option ℕ :=
  match v.type with
  | .assumedRank => none
  | .array es => if 0 ≤ dim ∧ dim < es.length then (es[dim.toNat]?).join else none

end Value

/-- `kMaxTraceDepth` -/
def maxTraceDepth : ℕ := 16

def traceStaticRank (v : Value) : Option ℕ :=
  trace Value.rankOperand Value.staticRank maxTraceDepth v

def extentAt (v : Value) (dim : ℤ) : Option ℕ :=
  trace Value.extentOperand (Value.staticExtent dim) maxTraceDepth v

/-! ## The pass -/

/-- A query of a box; the dimension of `fir.box_dims` may be a constant or not. -/
inductive Query
  | boxRank (v : Value)
  | boxDims (v : Value) (dim : ℤ) (constant : Bool)
  | isAssumedSize (v : Value)

inductive Answer
  | rank (n : ℕ)
  | dims (lower : ℤ) (extent : ℕ)
  | assumedSize (b : Bool)
deriving DecidableEq

namespace Query

def value : Query → Value
  | boxRank v | boxDims v _ _ | isAssumedSize v => v

/-- What the query returns at run time. -/
def answer : Query → Option Answer
  | boxRank v => some (.rank v.box.extents.length)
  | boxDims v dim _ =>
    if 0 ≤ dim then
      match v.box.lowers[dim.toNat]?, v.box.extents[dim.toNat]? with
      | some lower, some extent => some (.dims lower extent)
      | _, _ => none
    else none
  | isAssumedSize v => some (.assumedSize v.box.assumedSize)

/-- The constants the pass replaces the query by. -/
def folded : Query → Option Answer
  | boxRank v => (traceStaticRank v).map .rank
  | boxDims v dim constant => if constant then (extentAt v dim).map (.dims 1) else none
  | isAssumedSize v => (traceStaticRank v).map fun _ => .assumedSize false

/-- The query is left, or replaced by what it returns. -/
def FoldsRight (q : Query) : Prop :=
  ∀ a, q.folded = some a → q.answer = some a

/-- The constants of the pass are those of the box: its lower bound is 1 and its extent that of the
nearest ancestor with a literal, or the array is no assumed-size one. -/
def Kept : Query → Prop
  | boxRank _ => True
  | boxDims v dim constant => constant = true →
      ∀ w, Nearest Value.extentOperand (Value.staticExtent dim) maxTraceDepth v w →
        v.box.lowers[dim.toNat]? = some 1 ∧ v.box.extents[dim.toNat]? = w.box.extents[dim.toNat]?
  | isAssumedSize v =>
      (∃ w, Nearest Value.rankOperand Value.staticRank maxTraceDepth v w) →
        v.box.assumedSize = false

end Query

/-! ## Soundness of the types -/

namespace Value

variable {n : ℕ} {v w : Value}

/-- The literal of a type is the extent of its box. -/
theorem extent_of_staticExtent {v : Value} (h : v.WellTyped) {dim : ℤ}
    (hn : v.staticExtent dim = some n) : 0 ≤ dim ∧ v.box.extents[dim.toNat]? = some n := by
  have hd := h.describes
  unfold staticExtent at hn
  cases ht : v.type with
  | assumedRank =>
    rw [ht] at hn
    cases hn
  | array es =>
    rw [ht] at hn hd
    simp only [Option.ite_none_right_eq_some, Option.join_eq_some_iff] at hn
    obtain ⟨⟨hnonneg, -⟩, he⟩ := hn
    refine ⟨hnonneg, ?_⟩
    obtain ⟨hi, he⟩ := List.getElem?_eq_some_iff.mp he
    have hi' : dim.toNat < v.box.extents.length := hd.length_eq ▸ hi
    have := hd.get hi hi' n he
    rw [List.getElem?_eq_getElem hi']
    exact congrArg some this.symm

/-- The rank of a type is that of its box. -/
theorem rank_of_staticRank {v : Value} (h : v.WellTyped) (hn : v.staticRank = some n) :
    v.box.extents.length = n := by
  have hd := h.describes
  unfold staticRank at hn
  cases ht : v.type with
  | assumedRank =>
    rw [ht] at hn
    cases hn
  | array es =>
    rw [ht] at hn hd
    exact hd.length_eq.symm.trans (Option.some.inj hn)

theorem WellTyped.extentOperand (h : v.WellTyped) (hw : v.extentOperand = some w) :
    w.WellTyped := by
  cases v with
  | root t b => cases hw
  | _ =>
    obtain rfl := Option.some.inj hw
    exact h.2

/-- **An operation without a rank in its type keeps the box's rank.** -/
theorem rank_rankOperand (h : v.WellTyped) (hv : v.staticRank = none)
    (hw : v.rankOperand = some w) :
    w.WellTyped ∧ v.box.extents.length = w.box.extents.length := by
  cases v with
  | root t b => cases hw
  | embox u es b => cases hw
  | rebox u es b => cases hv
  | convertRef u es b => cases hv
  | declare u t lowers =>
    obtain rfl := Option.some.inj hw
    exact ⟨h.2, rfl⟩
  | convert u t =>
    obtain rfl := Option.some.inj hw
    exact ⟨h.2, rfl⟩

/-- Along the chain the types go on describing their boxes. -/
theorem wellTyped_of_nearest {dim : ℤ} (h : v.WellTyped)
    (hw : Nearest Value.extentOperand (staticExtent dim) n v w) : w.WellTyped := by
  refine hw.fold (R := fun a b => a.WellTyped → b.WellTyped) (fun _ h => h) ?_ h
  intro a a' w _ hs hrest ha
  exact hrest (ha.extentOperand hs)

/-- The rank found on the chain is the box's own. -/
theorem rank_of_nearest (h : v.WellTyped)
    (hw : Nearest Value.rankOperand staticRank n v w) :
    w.WellTyped ∧ v.box.extents.length = w.box.extents.length := by
  refine hw.fold (R := fun a b => a.WellTyped →
    b.WellTyped ∧ a.box.extents.length = b.box.extents.length) (fun _ h => ⟨h, rfl⟩) ?_ h
  intro a a' w hnone hs hrest ha
  obtain ⟨ha', hrank⟩ := rank_rankOperand ha hnone hs
  obtain ⟨hw, hrank'⟩ := hrest ha'
  exact ⟨hw, hrank.trans hrank'⟩

end Value

variable {v : Value}

/-- **The traced rank** is the rank at run time. -/
theorem traceStaticRank_sound (h : v.WellTyped) {n : ℕ} (hn : traceStaticRank v = some n) :
    v.box.extents.length = n := by
  obtain ⟨w, hw, hn⟩ := trace_eq_some.mp hn
  obtain ⟨hwell, hrank⟩ := Value.rank_of_nearest h hw
  exact hrank.trans (Value.rank_of_staticRank hwell hn)

/-- **The traced extent** is the run-time extent of the nearest ancestor with a literal. -/
theorem extentAt_eq_some (h : v.WellTyped) {dim : ℤ} {n : ℕ} :
    extentAt v dim = some n ↔ 0 ≤ dim ∧ ∃ w,
      Nearest Value.extentOperand (Value.staticExtent dim) maxTraceDepth v w ∧
        w.box.extents[dim.toNat]? = some n := by
  rw [extentAt, trace_eq_some]
  constructor
  · rintro ⟨w, hw, hn⟩
    obtain ⟨hdim, he⟩ := Value.extent_of_staticExtent (Value.wellTyped_of_nearest h hw) hn
    exact ⟨hdim, w, hw, he⟩
  · rintro ⟨-, w, hw, he⟩
    obtain ⟨m, hm⟩ := hw.answers
    obtain ⟨-, he'⟩ := Value.extent_of_staticExtent (Value.wellTyped_of_nearest h hw) hm
    rw [he'] at he
    exact ⟨w, hw, hm.trans he⟩

/-! ## The queries of a program -/

theorem boxRank_foldsRight (h : v.WellTyped) : (Query.boxRank v).FoldsRight := by
  intro a ha
  obtain ⟨n, hn, rfl⟩ := Option.map_eq_some_iff.mp ha
  exact congrArg (fun n => some (Answer.rank n)) (traceStaticRank_sound h hn)

theorem boxDims_foldsRight_iff (h : v.WellTyped) (dim : ℤ) (constant : Bool) :
    (Query.boxDims v dim constant).FoldsRight ↔ (Query.boxDims v dim constant).Kept := by
  constructor
  · rintro hright rfl w hw
    obtain ⟨n, hn⟩ := hw.answers
    obtain ⟨hdim, he⟩ := Value.extent_of_staticExtent (Value.wellTyped_of_nearest h hw) hn
    have hfold : extentAt v dim = some n := (extentAt_eq_some h).mpr ⟨hdim, w, hw, he⟩
    have ha := hright (.dims 1 n) (by simp only [Query.folded, hfold, if_true, Option.map_some])
    simp only [Query.answer, if_pos hdim] at ha
    split at ha
    · next lower extent hlower hextent =>
      obtain ⟨rfl, rfl⟩ := Answer.dims.inj (Option.some.inj ha)
      exact ⟨hlower, hextent.trans he.symm⟩
    · cases ha
  · intro hkept a ha
    cases constant with
    | false => cases ha
    | true =>
      obtain ⟨n, hn, rfl⟩ := Option.map_eq_some_iff.mp ha
      obtain ⟨hdim, w, hw, he⟩ := (extentAt_eq_some h).mp hn
      obtain ⟨hlower, hextent⟩ := hkept rfl w hw
      simp only [Query.answer, if_pos hdim, hlower, hextent, he]

theorem isAssumedSize_foldsRight_iff (v : Value) :
    (Query.isAssumedSize v).FoldsRight ↔ (Query.isAssumedSize v).Kept := by
  constructor
  · rintro hright ⟨w, hw⟩
    obtain ⟨n, hn⟩ := hw.answers
    have hfold : traceStaticRank v = some n := trace_eq_some.mpr ⟨w, hw, hn⟩
    have ha := hright (.assumedSize false) (by simp only [Query.folded, hfold, Option.map_some])
    exact Answer.assumedSize.inj (Option.some.inj ha)
  · intro hkept a ha
    obtain ⟨n, hn, rfl⟩ := Option.map_eq_some_iff.mp ha
    obtain ⟨w, hw, -⟩ := trace_eq_some.mp hn
    exact congrArg (fun b => some (Answer.assumedSize b)) (hkept ⟨w, hw⟩)

/-- A query whose chain the types describe. -/
structure TypedQuery where
  query : Query
  typed : query.value.WellTyped

theorem Query.right_iff (q : TypedQuery) : q.query.FoldsRight ↔ q.query.Kept := by
  obtain ⟨q, h⟩ := q
  cases q with
  | boxRank v => exact iff_of_true (boxRank_foldsRight h) trivial
  | boxDims v dim constant => exact boxDims_foldsRight_iff h dim constant
  | isAssumedSize v => exact isAssumedSize_foldsRight_iff v

/-- **The pass replaces the queries of a program by what they return exactly when the boxes keep**
the extents of the types it finds, have the lower bound 1 there and are no assumed-size arrays. -/
theorem foldsRight_iff (program : List TypedQuery) :
    (∀ q ∈ program, q.query.FoldsRight) ↔ ∀ q ∈ program, q.query.Kept :=
  forall₂_congr fun q _ => Query.right_iff q

/-! ## A slice -/

/-- The box of `a(1:5)` for `a(10)`, whose type has `?`. -/
def sliced : Value :=
  .rebox (.embox (.root (.array [some 10]) ⟨[1], [10], false⟩) [some 10] ⟨[1], [10], false⟩)
    [none] ⟨[1], [5], false⟩

theorem wellTyped_sliced : sliced.WellTyped := by
  simp [sliced, Value.WellTyped, ArrayType.Describes]

/-- The extent of the section becomes the one of the whole array. -/
theorem not_foldsRight_sliced : ¬∀ q ∈ [TypedQuery.mk (.boxDims sliced 0 true) wellTyped_sliced],
    q.query.FoldsRight := by
  intro h
  have ha : some (Answer.dims 1 5) = some (.dims 1 10) :=
    h _ (List.mem_singleton_self _) (.dims 1 10) (by decide)
  revert ha
  decide

end AssumedRank
