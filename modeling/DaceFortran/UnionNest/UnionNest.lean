/-
# The union nest of a stencil's two arms

`check_nest_pair` compares the bounds of two nests as texts and gives the union of their ranges on
the difference axis; `union_arms` puts the arms behind guards that test one end each.
-/
import Mathlib.Logic.Relation
import Mathlib.Data.List.Basic
import Mathlib.Data.Int.Notation

namespace UnionNest

open Relation

/-! ## Bounds -/

/-- A part of a bound: `name%comp`, a decimal number, or other text. -/
inductive Piece
  | comp (name comp : String)
  | num (n : ℕ)
  | text (s : String)
deriving DecidableEq

/-- A bound as the pattern of `_base_offset` splits it: what stands before a signed number at its
end, and that number. -/
structure Text where
  base : List Piece
  offset : Option ℤ
deriving DecidableEq

abbrev Bounds := Text × Text

/-- `int(s)`, where the text is a literal. -/
def intOf (s : Text) : Option ℤ :=
  match s.base, s.offset with
  | [], some k => some k
  | [.num n], none => some n
  | _, _ => none

def baseOffset (s : Text) : List Piece × ℤ := (s.base, s.offset.getD 0)

/-- The names in front of a `%` are mapped. -/
def Piece.rename (f : String → String) : Piece → Piece
  | .comp name c => .comp (f name) c
  | p => p

def canonical (canon : Option (List (String × String))) (base : List Piece) : List Piece :=
  match canon with
  | none => base
  | some [] => base
  | some canon => base.map (Piece.rename fun name => (canon.lookup name).getD name)

def unionRange (left right : Bounds) (aliases : Option (List (String × String))) :
    Except String Bounds :=
  match intOf left.1, intOf right.1, intOf left.2, intOf right.2 with
  | some il, some ir, some jl, some jr =>
    if jl + 1 < ir ∨ jr + 1 < il then .error "the arms leave a gap"
    else .ok (if il ≤ ir then left.1 else right.1, if il ≤ ir then left.2 else right.2)
  | _, _, _, _ =>
    let (blLo, ofLo) := baseOffset left.1
    let (blHi, ofHi) := baseOffset left.2
    let (brLo, orLo) := baseOffset right.1
    let (brHi, orHi) := baseOffset right.2
    if (canonical aliases blLo, canonical aliases blHi) ≠
        (canonical aliases brLo, canonical aliases brHi) then
      .error "the arms do not share their bounds' bases"
    else
      let dLo := ofLo - orLo
      let dHi := ofHi - orHi
      if dLo.natAbs ≠ 1 ∨ dHi.natAbs ≠ 1 ∨
        dLo ≠ dHi then .error "the arms are not a one-cell mirror"
      else .ok (if 0 < dLo then (right.1, left.2) else (left.1, right.2))

/-! ## Aliases -/

/-- `parent.get(x, x)` -/
def parentOf (parent : List (String × String)) (x : String) : String := (parent.lookup x).getD x

/-- The loop of `find`: the chained assignment binds `x` first, so it is the grandparent that
becomes its own parent. -/
def findLoop : ℕ → List (String × String) → String → String × List (String × String)
  | 0, parent, x => (x, parent)
  | n + 1, parent, x =>
    if parentOf parent x = x then (x, parent)
    else
      let v := parentOf parent (parentOf parent x)
      findLoop n ((v, v) :: parent) v

def find (parent : List (String × String)) (x : String) : String × List (String × String) :=
  findLoop 2 parent x

def joinAlias (parent : List (String × String)) (q : String × String) : List (String × String) :=
  if q.1 = q.2 then parent
  else
    let (b, parent) := find parent q.2
    let (a, parent) := find parent q.1
    (a, b) :: parent

/-- The names in the order the set of them is walked in. -/
def canonOf : List (String × String) → List String → List (String × String)
  | _, [] => []
  | parent, n :: names => (n, (find parent n).1) :: canonOf (find parent n).2 names

def aliasMap (assignments : List (String × String)) (names : List String) :
    List (String × String) :=
  canonOf (assignments.foldl joinAlias []) names

/-! ## Nests -/

def mapBounds (canon : Option (List (String × String))) (b : Bounds) : Text × Text :=
  (⟨canonical canon b.1.base, b.1.offset⟩, ⟨canonical canon b.2.base, b.2.offset⟩)

def checkNestPair (axisPos : ℕ) (left right : List Bounds)
    (aliases : Option (List (String × String))) :
    Except String Bounds :=
  if left.length ≠ right.length then .error "the arms expose different loop bounds"
  else if ∃ i < left.length, i ≠ axisPos ∧
      left[i]?.map (mapBounds aliases) ≠ right[i]?.map (mapBounds aliases) then
    .error "the arms are not the same nest"
  else match left[axisPos]?, right[axisPos]? with
    | some l, some r => unionRange l r aliases
    | _, _ => .error "no such axis"

/-- A guard on the axis: `axis >= bound` or `axis <= bound`. -/
inductive Guard
  | atLeast (bound : Text)
  | atMost (bound : Text)

/-- The guarded body: the left arm's guard and the right arm's. -/
def unionArms (left right : Bounds) (leftIsUpper : Bool)
    (aliases : Option (List (String × String))) :
    Except String (Guard × Guard) :=
  match unionRange left right aliases with
  | .error e => .error e
  | .ok _ => .ok (if leftIsUpper then (.atLeast left.1, .atMost right.2)
      else (.atMost left.2, .atLeast right.1))

/-- The nest over the two arms: the union of the difference axis and the guards. -/
def unionNest (axisPos : ℕ) (left right : List Bounds) (leftIsUpper : Bool)
    (aliases : Option (List (String × String))) : Except String (Bounds × Guard × Guard) :=
  match checkNestPair axisPos left right aliases, left[axisPos]?, right[axisPos]? with
  | .ok union, some l, some r =>
    match unionArms l r leftIsUpper aliases with
    | .ok guards => .ok (union, guards)
    | .error e => .error e
  | .error e, _, _ => .error e
  | _, _, _ => .error "no such axis"

/-! ## Values -/

/-- The names the assignments make equal. -/
def Aliased (assignments : List (String × String)) : String → String → Prop :=
  EqvGen fun a b => (a, b) ∈ assignments

/-- A value for every base in which aliased names are equal. -/
structure Values (assignments : List (String × String)) where
  base : List Piece → ℤ
  empty : base [] = 0
  num : ∀ n : ℕ, base [.num n] = n
  aliased : ∀ f, (∀ n, Aliased assignments n (f n)) → ∀ b, base (b.map (Piece.rename f)) = base b

variable {assignments : List (String × String)}

def Values.text (σ : Values assignments) (s : Text) : ℤ := σ.base s.base + s.offset.getD 0

def Values.holds (σ : Values assignments) (g : Guard) (v : ℤ) : Prop :=
  match g with
  | .atLeast bound => σ.text bound ≤ v
  | .atMost bound => v ≤ σ.text bound

def Values.within (σ : Values assignments) (b : Bounds) (v : ℤ) : Prop :=
  σ.text b.1 ≤ v ∧ v ≤ σ.text b.2

/-- The cells of a nest. -/
def Values.cells (σ : Values assignments) (bounds : List Bounds) (cell : ℕ → ℤ) : Prop :=
  ∀ i b, bounds[i]? = some b → σ.within b (cell i)

/-- The cells at which the union nest runs an arm: those of the nest over the union where the arm's
guard holds. -/
def Values.runs (σ : Values assignments) (axisPos : ℕ) (bounds : List Bounds) (union : Bounds)
    (g : Guard) (cell : ℕ → ℤ) : Prop :=
  σ.cells (bounds.set axisPos union) cell ∧ σ.holds g (cell axisPos)

variable (σ : Values assignments)

theorem Values.intOf {s : Text} {k : ℤ} (h : intOf s = some k) :
    σ.text s = k := by
  rcases s with ⟨base, offset⟩
  unfold UnionNest.intOf at h
  unfold Values.text
  split at h
  · rename_i hbase hoffset
    cases h
    simp only at hbase hoffset
    rw [hbase, hoffset, σ.empty]
    exact Int.zero_add k
  · rename_i n hbase hoffset
    cases h
    simp only at hbase hoffset
    rw [hbase, hoffset, σ.num]
    exact Int.add_zero _
  · cases h

/-! ## The alias map joins aliased names only -/

/-- Every name is aliased to its parent. -/
def Sound (assignments parent : List (String × String)) : Prop :=
  ∀ x, Aliased assignments x (parentOf parent x)

theorem parentOf_cons (parent : List (String × String)) (a b x : String) :
    parentOf ((a, b) :: parent) x = if x = a then b else parentOf parent x := by
  unfold parentOf
  rw [List.lookup_cons]
  by_cases h : x = a
  · simp [h]
  · simp [h, beq_eq_false_iff_ne.2 h]

theorem sound_nil : Sound assignments [] := fun x => .refl x

variable {parent : List (String × String)} {left right union : Bounds}

theorem Sound.cons (h : Sound assignments parent) {a b : String}
    (hab : Aliased assignments a b) : Sound assignments ((a, b) :: parent) := by
  intro x
  rw [parentOf_cons]
  split_ifs with hx
  · rw [hx]
    exact hab
  · exact h x

theorem Sound.findLoop (n : ℕ) :
    ∀ {parent : List (String × String)}, Sound assignments parent → ∀ x,
      Aliased assignments x (findLoop n parent x).1 ∧
        Sound assignments (findLoop n parent x).2 := by
  induction n with
  | zero => exact fun h x => ⟨.refl x, h⟩
  | succ n ih =>
    intro parent h x
    rw [UnionNest.findLoop]
    split_ifs with hx
    · exact ⟨.refl x, h⟩
    · obtain ⟨hv, hsound⟩ := ih (h.cons (.refl (parentOf parent (parentOf parent x))))
        (parentOf parent (parentOf parent x))
      exact ⟨.trans _ _ _ (.trans _ _ _ (h x) (h _)) hv, hsound⟩

theorem Sound.find (h : Sound assignments parent) (x : String) :
    Aliased assignments x (find parent x).1 ∧ Sound assignments (find parent x).2 :=
  Sound.findLoop 2 h x

theorem Sound.joinAlias (h : Sound assignments parent)
    {q : String × String} (hq : q ∈ assignments) : Sound assignments (joinAlias parent q) := by
  unfold UnionNest.joinAlias
  split_ifs
  · exact h
  · obtain ⟨hb, hsound⟩ := h.find q.2
    obtain ⟨ha, hsound⟩ := hsound.find q.1
    have hab : Aliased assignments q.1 q.2 := .rel _ _ hq
    exact hsound.cons (.trans _ _ _ (.symm _ _ ha) (.trans _ _ _ hab hb))

theorem Sound.foldl (rest : List (String × String)) : (∀ q ∈ rest, q ∈ assignments) →
    ∀ {parent : List (String × String)}, Sound assignments parent →
      Sound assignments (rest.foldl UnionNest.joinAlias parent) := by
  induction rest with
  | nil => exact fun _ _ h => h
  | cons q rest ih =>
    intro hrest parent h
    exact ih (fun p hp => hrest p (List.mem_cons_of_mem q hp))
      (h.joinAlias (hrest q List.mem_cons_self))

theorem canonOf_aliased (names : List String) : ∀ {parent : List (String × String)},
    Sound assignments parent →
      ∀ x, Aliased assignments x (((canonOf parent names).lookup x).getD x) := by
  induction names with
  | nil => exact fun _ x => .refl x
  | cons n names ih =>
    intro parent h x
    obtain ⟨hn, hsound⟩ := h.find n
    rw [canonOf, List.lookup_cons]
    by_cases hx : x = n
    · subst hx
      simpa using hn
    · rw [beq_eq_false_iff_ne.2 hx]
      exact ih hsound x

/-- The alias map gives every name one it is aliased to. -/
theorem aliasMap_aliased (assignments : List (String × String)) (names : List String) (x : String) :
    Aliased assignments x (((aliasMap assignments names).lookup x).getD x) :=
  canonOf_aliased names (Sound.foldl assignments (fun _ h => h) sound_nil) x

/-- The map of `alias_map`, or none. -/
def aliasesOf (assignments : List (String × String)) (names : Option (List String)) :
    Option (List (String × String)) :=
  names.map (aliasMap assignments)

theorem Values.canonical (names : Option (List String)) (base : List Piece) :
    σ.base (canonical (aliasesOf assignments names) base) = σ.base base := by
  unfold UnionNest.canonical aliasesOf
  cases names with
  | none => rfl
  | some names =>
    cases hmap : aliasMap assignments names with
    | nil => simp only [Option.map_some, hmap]
    | cons q canon =>
      simp only [Option.map_some, hmap]
      refine σ.aliased _ ?_ base
      intro n
      rw [← hmap]
      exact aliasMap_aliased assignments names n

variable {names : Option (List String)} {axisPos : ℕ} {bounds : List Bounds}

/-- Bases that are the same after aliasing have the same value. -/
theorem Values.base_eq {b b' : List Piece}
    (h : UnionNest.canonical (aliasesOf assignments names) b =
      UnionNest.canonical (aliasesOf assignments names) b') : σ.base b = σ.base b' := by
  rw [← σ.canonical names b, h, σ.canonical]

/-! ## One axis -/

variable {p q bound lo hi : ℤ}

/-- The same cells. -/
theorem interval_eq_iff {r s : ℤ} :
    (∀ v, p ≤ v ∧ v ≤ q ↔ r ≤ v ∧ v ≤ s) ↔ (p = r ∧ q = s) ∨ (q < p ∧ s < r) := by
  constructor
  · intro h
    have h1 := h p
    have h2 := h q
    have h3 := h r
    have h4 := h s
    omega
  · intro h v
    omega

/-- The literal ranges `[a, b]` on the left and `[c, d]` on the right that the union and the guards
fit: the union is the range that starts first. -/
def LiteralFits (leftIsUpper : Bool) (a b c d : ℤ) : Prop :=
  if a ≤ c then
    if leftIsUpper then (a = c ∧ d ≤ b) ∨ (d < c ∧ min b d < a) else b = d ∨ (d < c ∧ b < c)
  else
    if leftIsUpper then b = d ∨ (b < a ∧ d < a) else b < a ∧ min b d < c

/-- What the guards leave of a range. -/
def guarded (g : Bool) (bound lo hi v : ℤ) : Prop :=
  (lo ≤ v ∧ v ≤ hi) ∧ if g then bound ≤ v else v ≤ bound

theorem guarded_lower_iff :
    (∀ v, guarded true bound lo hi v ↔ p ≤ v ∧ v ≤ q) ↔
      (max lo bound = p ∧ hi = q) ∨ (hi < max lo bound ∧ q < p) := by
  rw [← interval_eq_iff]
  refine forall_congr' fun v => iff_congr ?_ Iff.rfl
  simp only [guarded, if_true]
  omega

theorem guarded_upper_iff :
    (∀ v, guarded false bound lo hi v ↔ p ≤ v ∧ v ≤ q) ↔
      (lo = p ∧ min hi bound = q) ∨ (min hi bound < lo ∧ q < p) := by
  rw [← interval_eq_iff]
  refine forall_congr' fun v => iff_congr ?_ Iff.rfl
  simp only [guarded, Bool.false_eq_true, if_false]
  omega

/-- Both arms run on their own ranges. -/
def ArmsFit (leftIsUpper : Bool) (a b c d lo hi : ℤ) : Prop :=
  (∀ v, guarded leftIsUpper (if leftIsUpper then a else b) lo hi v ↔ a ≤ v ∧ v ≤ b) ∧
    ∀ v, guarded (!leftIsUpper) (if leftIsUpper then d else c) lo hi v ↔ c ≤ v ∧ v ≤ d

theorem armsFit_literal_iff (leftIsUpper : Bool) (a b c d : ℤ) :
    ArmsFit leftIsUpper a b c d (if a ≤ c then a else c) (if a ≤ c then b else d) ↔
      LiteralFits leftIsUpper a b c d := by
  unfold ArmsFit LiteralFits
  cases leftIsUpper
  · simp only [Bool.false_eq_true, if_false, Bool.not_false]
    rw [guarded_upper_iff, guarded_lower_iff]
    split_ifs <;> omega
  · simp only [if_true, Bool.not_true]
    rw [guarded_upper_iff, guarded_lower_iff]
    split_ifs <;> omega

/-- The union of a one-cell mirror and the side the flag gives the left arm. -/
theorem armsFit_mirror_iff (leftIsUpper : Bool) {a b c d : ℤ} (hmirror : a - c = b - d)
    (hone : (a - c).natAbs = 1) :
    ArmsFit leftIsUpper a b c d (min a c) (max b d) ↔
      leftIsUpper = decide (c < a) ∨ max b d < min a c := by
  unfold ArmsFit
  cases leftIsUpper
  · simp only [Bool.false_eq_true, if_false, Bool.not_false]
    rw [guarded_upper_iff, guarded_lower_iff, eq_comm (a := false), decide_eq_false_iff_not]
    omega
  · simp only [if_true, Bool.not_true]
    rw [guarded_upper_iff, guarded_lower_iff, eq_comm (a := true), decide_eq_true_iff]
    omega

/-! ## Accepted pairs -/

/-- The pair of literal ranges or the one-cell mirror a union was accepted for. -/
inductive Accepted (assignments : List (String × String)) (names : Option (List String))
    (left right : Bounds) : Bounds → Prop
  | literal {il ir jl jr : ℤ} (hil : intOf left.1 = some il) (hir : intOf right.1 = some ir)
      (hjl : intOf left.2 = some jl) (hjr : intOf right.2 = some jr) :
      Accepted assignments names left right
        (if il ≤ ir then left.1 else right.1, if il ≤ ir then left.2 else right.2)
  | mirror (hnone : intOf left.1 = none ∨ intOf right.1 = none ∨ intOf left.2 = none ∨
        intOf right.2 = none)
      (hlo : canonical (aliasesOf assignments names) left.1.base =
        canonical (aliasesOf assignments names) right.1.base)
      (hhi : canonical (aliasesOf assignments names) left.2.base =
        canonical (aliasesOf assignments names) right.2.base)
      (hone : (left.1.offset.getD 0 - right.1.offset.getD 0).natAbs = 1)
      (hsame : left.1.offset.getD 0 - right.1.offset.getD 0 =
        left.2.offset.getD 0 - right.2.offset.getD 0) :
      Accepted assignments names left right
        (if 0 < left.1.offset.getD 0 - right.1.offset.getD 0 then (right.1, left.2)
          else (left.1, right.2))

theorem accepted_of_mirror
    (hnone : intOf left.1 = none ∨ intOf right.1 = none ∨ intOf left.2 = none ∨
      intOf right.2 = none)
    (h : (if (canonical (aliasesOf assignments names) left.1.base,
          canonical (aliasesOf assignments names) left.2.base) ≠
        (canonical (aliasesOf assignments names) right.1.base,
          canonical (aliasesOf assignments names) right.2.base) then
        (Except.error "the arms do not share their bounds' bases" : Except String Bounds)
      else if (left.1.offset.getD 0 - right.1.offset.getD 0).natAbs ≠ 1 ∨
          (left.2.offset.getD 0 - right.2.offset.getD 0).natAbs ≠ 1 ∨
          left.1.offset.getD 0 - right.1.offset.getD 0 ≠
            left.2.offset.getD 0 - right.2.offset.getD 0 then
        .error "the arms are not a one-cell mirror"
      else .ok (if 0 < left.1.offset.getD 0 - right.1.offset.getD 0 then (right.1, left.2)
        else (left.1, right.2))) = .ok union) :
    Accepted assignments names left right union := by
  split_ifs at h with hbases hmirror hpos
  · simp only [not_not, Prod.mk.injEq] at hbases
    simp only [not_or, not_not] at hmirror
    obtain ⟨hone, -, hsame⟩ := hmirror
    cases h
    have haccepted := Accepted.mirror hnone hbases.1 hbases.2 hone hsame
    rwa [if_pos hpos] at haccepted
  · simp only [not_not, Prod.mk.injEq] at hbases
    simp only [not_or, not_not] at hmirror
    obtain ⟨hone, -, hsame⟩ := hmirror
    cases h
    have haccepted := Accepted.mirror hnone hbases.1 hbases.2 hone hsame
    rwa [if_neg hpos] at haccepted

theorem accepted_of_ok
    (h : unionRange left right (aliasesOf assignments names) = .ok union) :
    Accepted assignments names left right union := by
  unfold unionRange at h
  cases hil : intOf left.1 with
  | none =>
    simp only [hil, baseOffset] at h
    exact accepted_of_mirror (.inl hil) h
  | some il =>
    cases hir : intOf right.1 with
    | none =>
      simp only [hil, hir, baseOffset] at h
      exact accepted_of_mirror (.inr (.inl hir)) h
    | some ir =>
      cases hjl : intOf left.2 with
      | none =>
        simp only [hil, hir, hjl, baseOffset] at h
        exact accepted_of_mirror (.inr (.inr (.inl hjl))) h
      | some jl =>
        cases hjr : intOf right.2 with
        | none =>
          simp only [hil, hir, hjl, hjr, baseOffset] at h
          exact accepted_of_mirror (.inr (.inr (.inr hjr))) h
        | some jr =>
          simp only [hil, hir, hjl, hjr] at h
          split_ifs at h with hgap hle
          · cases h
            have haccepted : Accepted assignments names left right _ :=
              .literal hil hir hjl hjr
            rwa [if_pos hle, if_pos hle] at haccepted
          · cases h
            have haccepted : Accepted assignments names left right _ :=
              .literal hil hir hjl hjr
            rwa [if_neg hle, if_neg hle] at haccepted

/-- On the difference axis the arms run on their own ranges: literal ranges that the union and the
guards fit, or a mirror whose upper arm is the one the flag says, or one without cells. -/
def AxisFits (σ : Values assignments) (left right : Bounds) (leftIsUpper : Bool) : Prop :=
  if intOf left.1 = none ∨ intOf right.1 = none ∨ intOf left.2 = none ∨ intOf right.2 = none then
    leftIsUpper = decide (σ.text right.1 < σ.text left.1) ∨
      max (σ.text left.2) (σ.text right.2) < min (σ.text left.1) (σ.text right.1)
  else LiteralFits leftIsUpper (σ.text left.1) (σ.text left.2) (σ.text right.1) (σ.text right.2)

theorem Accepted.armsFit_iff
    (h : Accepted assignments names left right union) (σ : Values assignments)
    (leftIsUpper : Bool) :
    ArmsFit leftIsUpper (σ.text left.1) (σ.text left.2) (σ.text right.1) (σ.text right.2)
      (σ.text union.1) (σ.text union.2) ↔ AxisFits σ left right leftIsUpper := by
  unfold AxisFits
  cases h with
  | @literal il ir jl jr hil hir hjl hjr =>
    have hliteral : ¬ (intOf left.1 = none ∨ intOf right.1 = none ∨ intOf left.2 = none ∨
        intOf right.2 = none) := by
      simp [hil, hir, hjl, hjr]
    rw [if_neg hliteral, ← armsFit_literal_iff]
    simp only [apply_ite σ.text, σ.intOf hil, σ.intOf hir, σ.intOf hjl, σ.intOf hjr]
  | mirror hnone hlo hhi hone hsame =>
    have hlo := σ.base_eq hlo
    have hhi := σ.base_eq hhi
    rw [if_pos hnone]
    have hdiff : σ.text left.1 - σ.text right.1 =
        left.1.offset.getD 0 - right.1.offset.getD 0 := by
      simp only [Values.text, hlo]
      omega
    have hdiff' : σ.text left.2 - σ.text right.2 =
        left.2.offset.getD 0 - right.2.offset.getD 0 := by
      simp only [Values.text, hhi]
      omega
    rw [← armsFit_mirror_iff leftIsUpper (by omega) (by rw [hdiff]; exact hone)]
    have hunion : σ.text (if 0 < left.1.offset.getD 0 - right.1.offset.getD 0 then (right.1, left.2)
          else (left.1, right.2)).1 = min (σ.text left.1) (σ.text right.1) := by
      split_ifs
      · dsimp only
        omega
      · dsimp only
        omega
    have hunion' : σ.text (if 0 < left.1.offset.getD 0 - right.1.offset.getD 0 then
      (right.1, left.2)
          else (left.1, right.2)).2 = max (σ.text left.2) (σ.text right.2) := by
      split_ifs
      · dsimp only
        omega
      · dsimp only
        omega
    rw [hunion, hunion']

/-! ## The nest -/

/-- Each arm runs exactly on the cells of its own nest. -/
def RunsOwnCells (σ : Values assignments) (axisPos : ℕ) (left right : List Bounds) (union : Bounds)
    (guards : Guard × Guard) : Prop :=
  ∀ cell, (σ.runs axisPos left union guards.1 cell ↔ σ.cells left cell) ∧
    (σ.runs axisPos left union guards.2 cell ↔ σ.cells right cell)

/-- The cell lies in the ranges of the other axes. -/
def Values.transverse (σ : Values assignments) (axisPos : ℕ) (bounds : List Bounds) (cell : ℕ → ℤ) :
    Prop :=
  ∀ i b, i ≠ axisPos → bounds[i]? = some b → σ.within b (cell i)

theorem Values.cells_set
    (haxis : axisPos < bounds.length) (b : Bounds) (cell : ℕ → ℤ) :
    σ.cells (bounds.set axisPos b) cell ↔
      σ.transverse axisPos bounds cell ∧ σ.within b (cell axisPos) := by
  constructor
  · intro h
    refine ⟨?_, h axisPos b (List.getElem?_set_self haxis)⟩
    intro i b' hi hb'
    refine h i b' ?_
    rw [List.getElem?_set_ne (Ne.symm hi)]
    exact hb'
  · rintro ⟨htransverse, hwithin⟩ i b' hb'
    by_cases hi : i = axisPos
    · subst hi
      rw [List.getElem?_set_self haxis] at hb'
      cases hb'
      exact hwithin
    · rw [List.getElem?_set_ne (Ne.symm hi)] at hb'
      exact htransverse i b' hi hb'

theorem Values.cells_iff {b : Bounds}
    (hb : bounds[axisPos]? = some b) (cell : ℕ → ℤ) :
    σ.cells bounds cell ↔ σ.transverse axisPos bounds cell ∧ σ.within b (cell axisPos) := by
  obtain ⟨haxis, rfl⟩ := List.getElem?_eq_some_iff.1 hb
  have hset : bounds.set axisPos bounds[axisPos] = bounds := List.set_getElem_self haxis
  have h := σ.cells_set haxis bounds[axisPos] cell
  rwa [hset] at h

theorem Values.within_congr {b b' : Bounds}
    (h : mapBounds (aliasesOf assignments names) b = mapBounds (aliasesOf assignments names) b')
    (v : ℤ) : σ.within b v ↔ σ.within b' v := by
  simp only [mapBounds, Prod.mk.injEq, Text.mk.injEq] at h
  obtain ⟨⟨hlo, hloffset⟩, hhi, hhoffset⟩ := h
  simp only [Values.within, Values.text, σ.base_eq hlo, σ.base_eq hhi, hloffset, hhoffset]

/-- The other axes run over the same cells in both arms. -/
theorem transverse_congr
    {left right : List Bounds} (hlength : left.length = right.length)
    (h : ¬ ∃ i < left.length, i ≠ axisPos ∧ left[i]?.map (mapBounds (aliasesOf assignments names)) ≠
      right[i]?.map (mapBounds (aliasesOf assignments names))) (cell : ℕ → ℤ) :
    σ.transverse axisPos left cell ↔ σ.transverse axisPos right cell := by
  have hsame : ∀ i b b', i ≠ axisPos → left[i]? = some b → right[i]? = some b' →
      ∀ v, σ.within b v ↔ σ.within b' v := by
    intro i b b' hi hb hb'
    have hmap : left[i]?.map (mapBounds (aliasesOf assignments names)) =
        right[i]?.map (mapBounds (aliasesOf assignments names)) := by
      by_contra hne
      exact h ⟨i, (List.getElem?_eq_some_iff.1 hb).1, hi, hne⟩
    rw [hb, hb'] at hmap
    exact σ.within_congr (Option.some.inj hmap)
  constructor
  · intro hleft i b' hi hb'
    have hlt : i < left.length := by
      rw [hlength]
      exact (List.getElem?_eq_some_iff.1 hb').1
    have hb : left[i]? = some left[i] := List.getElem?_eq_getElem hlt
    exact (hsame i _ b' hi hb hb' _).1 (hleft i _ hi hb)
  · intro hright i b hi hb
    have hlt : i < right.length := by
      rw [← hlength]
      exact (List.getElem?_eq_some_iff.1 hb).1
    have hb' : right[i]? = some right[i] := List.getElem?_eq_getElem hlt
    exact (hsame i b _ hi hb hb' _).2 (hright i _ hi hb')

/-- One of the other axes has no cell. -/
def Values.empties (σ : Values assignments) (axisPos : ℕ) (bounds : List Bounds) : Prop :=
  ∃ i b, i ≠ axisPos ∧ bounds[i]? = some b ∧ σ.text b.2 < σ.text b.1

theorem Values.not_transverse
    (h : σ.empties axisPos bounds) (cell : ℕ → ℤ) : ¬ σ.transverse axisPos bounds cell := by
  obtain ⟨i, b, hi, hb, hlt⟩ := h
  intro htransverse
  obtain ⟨hlo, hhi⟩ := htransverse i b hi hb
  omega

/-- The lower ends of the other axes, and any value on the difference axis. -/
theorem Values.exists_transverse
    (h : ¬ σ.empties axisPos bounds) (v : ℤ) :
    ∃ cell, σ.transverse axisPos bounds cell ∧ cell axisPos = v := by
  refine ⟨fun i => if i = axisPos then v else match bounds[i]? with
    | some b => σ.text b.1
    | none => 0, ?_, if_pos rfl⟩
  intro i b hi hb
  have hnonempty : σ.text b.1 ≤ σ.text b.2 := by
    by_contra hlt
    exact h ⟨i, b, hi, hb, by omega⟩
  simp only [if_neg hi, hb]
  exact ⟨Int.le_refl _, hnonempty⟩

theorem ok_of_unionNest {left right : List Bounds} {leftIsUpper : Bool}
    {aliases : Option (List (String × String))} {union : Bounds} {guards : Guard × Guard}
    (h : unionNest axisPos left right leftIsUpper aliases = .ok (union, guards)) :
    left.length = right.length ∧
    (¬ ∃ i < left.length, i ≠ axisPos ∧
      left[i]?.map (mapBounds aliases) ≠ right[i]?.map (mapBounds aliases)) ∧
    ∃ l r, left[axisPos]? = some l ∧ right[axisPos]? = some r ∧
      unionRange l r aliases = .ok union ∧
      guards = if leftIsUpper then (.atLeast l.1, .atMost r.2)
        else (.atMost l.2, .atLeast r.1) := by
  unfold unionNest at h
  cases hcheck : checkNestPair axisPos left right aliases with
  | error e => simp [hcheck] at h
  | ok u =>
    cases hl : left[axisPos]? with
    | none => simp [hcheck, hl] at h
    | some l =>
      cases hr : right[axisPos]? with
      | none => simp [hcheck, hl, hr] at h
      | some r =>
        unfold checkNestPair at hcheck
        split_ifs at hcheck with hlength hsame
        simp only [hl, hr] at hcheck
        have hchecked : checkNestPair axisPos left right aliases = .ok u := by
          unfold checkNestPair
          rw [if_neg hlength, if_neg hsame]
          simp only [hl, hr]
          exact hcheck
        simp only [hchecked, hl, hr, unionArms, hcheck, Except.ok.injEq, Prod.mk.injEq] at h
        obtain ⟨rfl, rfl⟩ := h
        exact ⟨not_not.1 hlength, hsame, l, r, rfl, rfl, hcheck, rfl⟩

/-- **The arms run on their own cells** exactly when an axis they share has no cell or the union and
the guards fit the ranges of the difference axis. -/
theorem unionNest_runsOwnCells_iff (assignments : List (String × String))
    (names : Option (List String))
    (σ : Values assignments) (axisPos : ℕ) (left right : List Bounds) (leftIsUpper : Bool)
    (union : Bounds) (guards : Guard × Guard)
    (h : unionNest axisPos left right leftIsUpper (aliasesOf assignments names) =
      .ok (union, guards)) :
    RunsOwnCells σ axisPos left right union guards ↔
      σ.empties axisPos left ∨ ∃ l r, left[axisPos]? = some l ∧ right[axisPos]? = some r ∧
        AxisFits σ l r leftIsUpper := by
  obtain ⟨hlength, hsame, l, r, hl, hr, hunion, rfl⟩ := ok_of_unionNest h
  have haxis : axisPos < left.length := (List.getElem?_eq_some_iff.1 hl).1
  have hfits := (accepted_of_ok hunion).armsFit_iff σ leftIsUpper
  have hright : (∃ l r, left[axisPos]? = some l ∧ right[axisPos]? = some r ∧
      AxisFits σ l r leftIsUpper) ↔ AxisFits σ l r leftIsUpper := by
    simp [hl, hr]
  rw [hright, ← hfits]
  -- what an arm runs on the axis is what its guard leaves of the union
  have hruns : RunsOwnCells σ axisPos left right union
    (if leftIsUpper then (.atLeast l.1, .atMost r.2)
      else (.atMost l.2, .atLeast r.1)) ↔ ∀ cell, σ.transverse axisPos left cell →
        (guarded leftIsUpper (if leftIsUpper then σ.text l.1 else σ.text l.2) (σ.text union.1)
          (σ.text union.2) (cell axisPos) ↔ σ.within l (cell axisPos)) ∧
        (guarded (!leftIsUpper) (if leftIsUpper then σ.text r.2 else σ.text r.1) (σ.text union.1)
          (σ.text union.2) (cell axisPos) ↔ σ.within r (cell axisPos)) := by
    unfold RunsOwnCells
    refine forall_congr' fun cell => ?_
    simp only [Values.runs, σ.cells_set haxis, σ.cells_iff hl, σ.cells_iff hr,
      ← transverse_congr σ hlength hsame cell, and_assoc]
    rw [and_congr_right_iff, and_congr_right_iff, ← imp_and]
    cases leftIsUpper <;> exact Iff.rfl
  rw [hruns]
  by_cases hempty : σ.empties axisPos left
  · refine iff_of_true ?_ (.inl hempty)
    intro cell htransverse
    exact absurd htransverse (σ.not_transverse hempty cell)
  · rw [or_iff_right hempty]
    constructor
    · intro hall
      refine ⟨fun v => ?_, fun v => ?_⟩
      · obtain ⟨cell, hcell, rfl⟩ := σ.exists_transverse hempty v
        exact (hall cell hcell).1
      · obtain ⟨cell, hcell, rfl⟩ := σ.exists_transverse hempty v
        exact (hall cell hcell).2
    · rintro ⟨hleft, hright⟩ cell -
      exact ⟨hleft _, hright _⟩

/-- Every name is zero. -/
def zeroNames (assignments : List (String × String)) : Values assignments where
  base
    | [.num n] => n
    | _ => 0
  empty := rfl
  num _ := rfl
  aliased f _ b := by
    rcases b with - | ⟨p, - | ⟨q, rest⟩⟩
    · rfl
    · cases p <;> rfl
    · cases p <;> rfl

/-- The component `end` of a name is 5, the others are zero. -/
def toFive : Values [] where
  base
    | [.num n] => n
    | [.comp _ c] => if c = "end" then 5 else 0
    | _ => 0
  empty := rfl
  num _ := rfl
  aliased f _ b := by
    rcases b with - | ⟨p, - | ⟨q, rest⟩⟩
    · rfl
    · cases p <;> rfl
    · cases p <;> rfl

/-- The left arm `[ix%beg + 1, ix%end]` and the right arm `[ix%beg, ix%end - 1]` run on `[1, 5]` and
`[0, 4]`. -/
theorem unionNest_runsOwnCells_iff_mirror :
    RunsOwnCells toFive 0 [(⟨[.comp "ix" "beg"], some 1⟩, ⟨[.comp "ix" "end"], none⟩)]
      [(⟨[.comp "ix" "beg"], none⟩, ⟨[.comp "ix" "end"], some (-1)⟩)]
      (⟨[.comp "ix" "beg"], none⟩, ⟨[.comp "ix" "end"], none⟩)
      (.atLeast ⟨[.comp "ix" "beg"], some 1⟩, .atMost ⟨[.comp "ix" "end"], some (-1)⟩) := by
  refine (unionNest_runsOwnCells_iff [] none toFive 0 _ _ true _ _ rfl).2
    (.inr ⟨_, _, rfl, rfl, ?_⟩)
  rw [AxisFits, if_pos (.inl rfl)]
  exact .inl rfl

/-- The arms `[1, 5]` and `[0, 4]`: the union is `[0, 4]`, so the left arm never runs on cell 5. -/
theorem not_runsOwnCells_literal :
    unionNest 0 [(⟨[.num 1], none⟩, ⟨[.num 5], none⟩)]
    [(⟨[.num 0], none⟩, ⟨[.num 4], none⟩)] true none =
      .ok ((⟨[.num 0], none⟩, ⟨[.num 4], none⟩), .atLeast ⟨[.num 1], none⟩,
        .atMost ⟨[.num 4], none⟩) ∧
    ¬ RunsOwnCells (zeroNames []) 0 [(⟨[.num 1], none⟩, ⟨[.num 5], none⟩)]
      [(⟨[.num 0], none⟩, ⟨[.num 4], none⟩)] (⟨[.num 0], none⟩, ⟨[.num 4], none⟩)
      (.atLeast ⟨[.num 1], none⟩, .atMost ⟨[.num 4], none⟩) := by
  refine ⟨rfl, ?_⟩
  intro h
  have hcell : (zeroNames []).cells [(⟨[.num 1], none⟩, ⟨[.num 5], none⟩)] fun _ => 5 := by
    intro i b hb
    cases i with
    | zero =>
      cases hb
      exact ⟨by decide, by decide⟩
    | succ i => simp at hb
  have hruns := ((h fun _ => 5).1.2 hcell).1 0 _ rfl
  exact absurd hruns.2 (by decide)

end UnionNest
