/-
# `FoldCopyInOut`

The pass that folds a `copy_in` / `copy_out` pair around the alias declares of an inlined
callee: every designate on an alias becomes one on the source of the copy, with the section
folded in (`rewriteAccess`) or with its own indices (`reparentMemberCopy`).
-/
import DaceFortran.Lib.ArrayOrder

open List

namespace CopyFold

open ArrayOrder

/-! ## Designates -/

/-- An index operand; `fir.convert` changes no index. -/
inductive Value where
  | const (k : ℤ)
  | ssa (v : ℕ)
  | sub (a b : Value)
  | add (a b : Value)
  deriving DecidableEq

def Value.eval (env : ℕ → ℤ) : Value → ℤ
  | .const k => k
  | .ssa v => env v
  | .sub a b => a.eval env - b.eval env
  | .add a b => a.eval env + b.eval env

/-- `traceConstIndex` -/
def traceConstIndex : Value → Option ℤ
  | .const k => some k
  | _ => none

def isConstOne (v : Value) : Bool := decide (traceConstIndex v = some 1)

/-- `DimIdx` -/
inductive DimIdx where
  | scalar (i : Value)
  | triplet (lo hi stride : Value)
  deriving DecidableEq

def DimIdx.isTriplet : DimIdx → Bool
  | .scalar _ => false
  | .triplet _ _ _ => true

def DimIdx.operands : DimIdx → List Value
  | .scalar i => [i]
  | .triplet lo hi stride => [lo, hi, stride]

/-- A designate: its flag for each dimension, if it has any, and its flat list of operands. -/
structure Designate where
  isTriplet : Option (List Bool)
  indices : List Value
  deriving DecidableEq

/-- The flat operand list, by dimension: three operands for a triplet and one for a scalar. -/
def splitDims : List Bool → List Value → Option (List DimIdx)
  | [], [] => some []
  | true :: flags, lo :: hi :: stride :: rest =>
    (splitDims flags rest).map fun dims => .triplet lo hi stride :: dims
  | false :: flags, i :: rest => (splitDims flags rest).map fun dims => .scalar i :: dims
  | _, _ => none

def tripletCount (dims : List DimIdx) : ℕ := dims.countP DimIdx.isTriplet

/-- `parseSection` -/
def parseSection (dg : Designate) : Option (List DimIdx) :=
  match dg.isTriplet with
  | none | some [] => none
  | some flags => (splitDims flags dg.indices).filter fun dims => decide (0 < tripletCount dims)

/-- The dimensions of an access; without flags every operand is a scalar index. -/
def accessDims (dg : Designate) : Option (List DimIdx) :=
  match dg.isTriplet with
  | none | some [] => some (dg.indices.map .scalar)
  | some flags => splitDims flags dg.indices

/-- The designate with the given dimensions, as the pass creates it. -/
def ofDims (dims : List DimIdx) : Designate where
  isTriplet := if dims.isEmpty then none else some (dims.map DimIdx.isTriplet)
  indices := dims.flatMap DimIdx.operands

/-! ## What designates name -/

/-- The indices of a triplet. -/
def tripletRange (lo hi stride : ℤ) : List ℤ :=
  (List.range ((hi - lo + stride).tdiv stride).toNat).map fun k : ℕ => lo + k * stride

/-- The elements a designate names, in array element order. -/
def points (env : ℕ → ℤ) : List DimIdx → List (List ℤ)
  | [] => [[]]
  | .scalar i :: dims => (points env dims).map fun is => i.eval env :: is
  | .triplet lo hi stride :: dims =>
    (points env dims).flatMap fun is =>
      (tripletRange (lo.eval env) (hi.eval env) (stride.eval env)).map fun i => i :: is

def Designate.points (dg : Designate) (env : ℕ → ℤ) : List (List ℤ) :=
  match accessDims dg with
  | some dims => CopyFold.points env dims
  | none => []

/-! ## The rewrite of an access -/

/-- `lo - 1`, unless `lo` is the constant one. -/
def lowerShift (lo : Value) : Option Value :=
  if traceConstIndex lo = some 1 then none else some (.sub lo (.const 1))

def shift (v : Value) : Option Value → Value
  | none => v
  | some d => .add v d

/-- The dimensions of the source in order; each triplet takes the next dimension of the alias. -/
def rewriteDims : List DimIdx → List DimIdx → List DimIdx
  | .scalar i :: sec, dims => .scalar i :: rewriteDims sec dims
  | .triplet lo _ _ :: sec, .scalar i :: dims =>
    .scalar (shift i (lowerShift lo)) :: rewriteDims sec dims
  | .triplet lo _ _ :: sec, .triplet l h stride :: dims =>
    .triplet (shift l (lowerShift lo)) (shift h (lowerShift lo)) stride :: rewriteDims sec dims
  | _, _ => []

/-- `rewriteAccess`; `none` leaves the access on the alias. -/
def rewriteAccess (sec : List DimIdx) (use : Designate) : Option Designate :=
  (accessDims use).bind fun dims =>
    if dims.length = tripletCount sec then some (ofDims (rewriteDims sec dims)) else none

/-! ## Aliases -/

/-- The results of a `fir.box_dims` that something reads. -/
structure BoxDims where
  lowerBound : Bool
  extent : Bool
  stride : Bool
  deriving DecidableEq

/-- A declare of the callee's dummy, with the bounds it has in an execution: the designates on it,
the queries of its shape, whether anything else uses it, and the re-declares of it. -/
inductive Alias where
  | mk (frame : Frame) (accesses : List Designate) (queries : List BoxDims) (foreign : Bool)
      (redeclared : List Alias)

mutual
/-- The uses of the alias and of its re-declares; `none` when anything else uses one of them. -/
def collectAliasUses : Alias → Option (List (Frame × Designate) × List BoxDims)
  | .mk frame accesses queries foreign redeclared =>
    if foreign then none
    else
      (collectAll redeclared).map fun u =>
        (accesses.map (fun dg => (frame, dg)) ++ u.1, queries ++ u.2)

def collectAll : List Alias → Option (List (Frame × Designate) × List BoxDims)
  | [] => some ([], [])
  | a :: rest =>
    match collectAliasUses a, collectAll rest with
    | some u, some u' => some (u.1 ++ u'.1, u.2 ++ u'.2)
    | _, _ => none
end

/-! ## The fold -/

/-- The source of a `copy_in`: a designate, with whether its elements are records, or the box of a
pointer or allocatable component, with its bounds. -/
inductive Source where
  | sectionOf (record : Bool) (dg : Designate)
  | member (box : Frame)

/-- The dimensions of a section the fold takes: its triplets have stride one, its elements are no
records. -/
def foldable (record : Bool) (dg : Designate) : Option (List DimIdx) :=
  (parseSection dg).filter fun sec =>
    (sec.all fun d =>
      match d with
      | .triplet _ _ stride => isConstOne stride
      | .scalar _ => true) && !record

/-- An access on an alias, and the one on the source in its place. -/
structure Folded where
  frame : Frame
  use : Designate
  new : Designate

/-- `tryFold`; `none` leaves the pair, which `rejectSurvivors` then refuses. -/
def tryFold (source : Source) (decl : Alias) : Option (List Folded) :=
  match source with
  | .sectionOf record dg =>
    (foldable record dg).bind fun sec =>
      (collectAliasUses decl).bind fun u =>
        if u.2 ≠ [] then none
        else u.1.mapM fun p => (rewriteAccess sec p.2).map fun new => ⟨p.1, p.2, new⟩
  | .member _ =>
    (collectAliasUses decl).bind fun u =>
      if u.2.any fun q => q.lowerBound || q.stride then none
      else some (u.1.map fun p => ⟨p.1, p.2, ⟨p.2.isTriplet, p.2.indices⟩⟩)

/-! ## The copy -/

/-- The elements of the source that `copy_in` places one after another, and `copy_out` writes
back. -/
def Source.copied (env : ℕ → ℤ) : Source → List (List ℤ)
  | .sectionOf _ dg => dg.points env
  | .member box => (List.range (size box)).map (indexAt box)

end CopyFold

/-
# The elements a folded access names

A section is read as a frame with lower bounds of one, a member box as the frame it has;
a folded access names the element that the copy has at the alias position for every access
exactly if the frame of the alias fits that frame.
-/

namespace CopyFold

open ArrayOrder

/-! ## Rebuilt designates -/

/-- The flags and operands of dimensions are read back as these dimensions. -/
theorem splitDims_operands (dims : List DimIdx) :
    splitDims (dims.map DimIdx.isTriplet) (dims.flatMap DimIdx.operands) = some dims := by
  induction dims with
  | nil => rfl
  | cons d dims ih =>
    cases d with
    | scalar i =>
      show (splitDims (dims.map DimIdx.isTriplet) (dims.flatMap DimIdx.operands)).map _ = _
      rw [ih]
      rfl
    | triplet lo hi stride =>
      show (splitDims (dims.map DimIdx.isTriplet) (dims.flatMap DimIdx.operands)).map _ = _
      rw [ih]
      rfl

theorem accessDims_ofDims (dims : List DimIdx) : accessDims (ofDims dims) = some dims := by
  cases dims with
  | nil => rfl
  | cons d dims => exact splitDims_operands (d :: dims)

variable {dg : Designate} {sec : List DimIdx} {is js : List ℤ} {source : Source}

/-- A section is read the same as an access. -/
theorem accessDims_of_parseSection (h : parseSection dg = some sec) :
    accessDims dg = some sec := by
  unfold parseSection at h
  unfold accessDims
  split at h
  · cases h
  · cases h
  · rename_i flags hne he
    rw [Option.filter_eq_some_iff] at h
    cases flags with
    | nil => exact (hne rfl).elim
    | cons f flags => exact h.1

/-! ## The frame of a section -/

@[simp] theorem tripletCount_scalar (i : Value) (sec : List DimIdx) :
    tripletCount (.scalar i :: sec) = tripletCount sec := by
  apply countP_cons_of_neg
  exact Bool.false_ne_true

@[simp] theorem tripletCount_triplet (lo hi stride : Value) (sec : List DimIdx) :
    tripletCount (.triplet lo hi stride :: sec) = tripletCount sec + 1 := countP_cons_of_pos rfl

/-- The elements of a section by the indices of its triplets, each from one on. -/
def toParent (env : ℕ → ℤ) : List DimIdx → List ℤ → List ℤ
  | .scalar i :: sec, is => i.eval env :: toParent env sec is
  | .triplet lo _ _ :: sec, i :: is => (i + (lo.eval env - 1)) :: toParent env sec is
  | _, _ => []

/-- A dimension for each triplet of stride one. -/
def sectionFrame (env : ℕ → ℤ) : List DimIdx → Frame
  | [] => []
  | .scalar _ :: sec => sectionFrame env sec
  | .triplet lo hi _ :: sec => ⟨1, (hi.eval env - lo.eval env + 1).toNat⟩ :: sectionFrame env sec

variable (env : ℕ → ℤ)

theorem sectionFrame_length (sec : List DimIdx) :
    (sectionFrame env sec).length = tripletCount sec := by
  induction sec with
  | nil => rfl
  | cons d sec ih =>
    cases d with
    | scalar i =>
      show (sectionFrame env sec).length = _
      rw [ih, tripletCount_scalar]
    | triplet lo hi stride =>
      show (sectionFrame env sec).length + 1 = _
      rw [ih, tripletCount_triplet]

theorem toParent_injective (sec : List DimIdx)
    (hi : is.length = tripletCount sec) (hj : js.length = tripletCount sec)
    (h : toParent env sec is = toParent env sec js) : is = js := by
  induction sec generalizing is js with
  | nil =>
    rw [eq_nil_of_length_eq_zero hi, eq_nil_of_length_eq_zero hj]
  | cons d sec ih =>
    cases d with
    | scalar i =>
      rw [tripletCount_scalar] at hi hj
      exact ih hi hj (List.cons.inj h).2
    | triplet lo h' stride =>
      rw [tripletCount_triplet] at hi hj
      cases is with
      | nil => simp at hi
      | cons i is =>
        cases js with
        | nil => simp at hj
        | cons j js =>
          simp only [toParent, List.cons.injEq] at h
          simp only [length_cons, Nat.add_right_cancel_iff] at hi hj
          rw [ih hi hj h.2, show i = j from by omega]

/-- Every triplet has stride one. -/
def StrideOne (sec : List DimIdx) : Prop :=
  ∀ d ∈ sec, ∀ lo hi stride, d = .triplet lo hi stride → ∀ env, stride.eval env = 1

theorem isConstOne_eval {v : Value} (h : isConstOne v = true) (env : ℕ → ℤ) : v.eval env = 1 := by
  unfold isConstOne at h
  cases v with
  | const k => exact Option.some.inj (of_decide_eq_true h)
  | ssa v => simp [traceConstIndex] at h
  | sub a b => simp [traceConstIndex] at h
  | add a b => simp [traceConstIndex] at h

theorem foldable_eq {record : Bool} (h : foldable record dg = some sec) :
    accessDims dg = some sec ∧ StrideOne sec := by
  unfold foldable at h
  rw [Option.filter_eq_some_iff, Bool.and_eq_true, all_eq_true] at h
  refine ⟨accessDims_of_parseSection h.1, ?_⟩
  rintro d hd lo hi stride rfl env
  exact isConstOne_eval (h.2.1 _ hd) env

/-- The section lists the elements of its frame in array element order. -/
theorem points_section (sec : List DimIdx) (h : StrideOne sec) :
    (points env sec).length = size (sectionFrame env sec) ∧
      ∀ q < size (sectionFrame env sec),
        (points env sec)[q]? = some (toParent env sec (indexAt (sectionFrame env sec) q)) := by
  induction sec with
  | nil =>
    refine ⟨rfl, ?_⟩
    intro q hq
    have : q = 0 := by simpa [sectionFrame, size] using hq
    rw [this]
    rfl
  | cons d sec ih =>
    obtain ⟨hlen, hget⟩ := ih fun d' hd' => h d' (mem_cons_of_mem _ hd')
    cases d with
    | scalar i =>
      refine ⟨by simpa [points, sectionFrame] using hlen, ?_⟩
      intro q hq
      simp only [points, List.getElem?_map]
      rw [hget q hq]
      rfl
    | triplet lo hi stride =>
      have hone : stride.eval env = 1 := h _ mem_cons_self lo hi stride rfl env
      set n := (hi.eval env - lo.eval env + 1).toNat with hn
      have hrange : tripletRange (lo.eval env) (hi.eval env) (stride.eval env) =
          (List.range n).map fun k : ℕ => lo.eval env + k := by
        unfold tripletRange
        rw [hone, Int.tdiv_one]
        simp only [mul_one]
        rw [hn]
      have hblock : ∀ is : List ℤ, ((tripletRange (lo.eval env) (hi.eval env)
          (stride.eval env)).map fun i => i :: is).length = n := by
        intro is
        rw [hrange]
        simp
      have hframe : sectionFrame env (.triplet lo hi stride :: sec) =
          ⟨1, n⟩ :: sectionFrame env sec := rfl
      constructor
      · rw [hframe]
        simp only [points, length_flatMap, hblock, size]
        simp [hlen, Nat.mul_comm]
      · intro q hq
        rw [hframe] at hq ⊢
        change q < n * size (sectionFrame env sec) at hq
        have hpos : 0 < n := Nat.pos_of_mul_pos_right (Nat.zero_lt_of_lt hq)
        have hlt : q % n < n := Nat.mod_lt q hpos
        simp only [points]
        rw [getElem?_flatMap_uniform _ _ hpos (fun is _ => hblock is),
          hget (q / n) (Nat.div_lt_of_lt_mul hq)]
        simp only [Option.bind_some, hrange, map_map, List.getElem?_map, indexAt]
        rw [List.getElem?_range hlt]
        simp only [Option.map_some, Function.comp_apply, toParent, Option.some.injEq,
          List.cons.injEq,
          and_true]
        omega

/-! ## Rewritten accesses -/

theorem eval_shift (v lo : Value) :
    (shift v (lowerShift lo)).eval env = v.eval env + (lo.eval env - 1) := by
  unfold lowerShift
  split_ifs with h
  · cases lo with
    | const k =>
      simp only [traceConstIndex, Option.some.injEq] at h
      simp [shift, Value.eval, h]
    | ssa v => cases h
    | sub a b => cases h
    | add a b => cases h
  · rfl

theorem tripletRange_shift (l h s c : ℤ) :
    tripletRange (l + c) (h + c) s = (tripletRange l h s).map fun i => i + c := by
  unfold tripletRange
  rw [map_map, show h + c - (l + c) + s = h - l + s from by omega]
  apply map_congr_left
  intro k _
  show l + c + k * s = l + k * s + c
  omega

/-- The rewritten designate names the elements of the access, each where the section has it. -/
theorem points_rewriteDims (sec dims : List DimIdx)
    (h : dims.length = tripletCount sec) :
    points env (rewriteDims sec dims) = (points env dims).map (toParent env sec) := by
  induction sec generalizing dims with
  | nil =>
    rw [eq_nil_of_length_eq_zero h]
    rfl
  | cons d sec ih =>
    cases d with
    | scalar i =>
      rw [tripletCount_scalar] at h
      show (points env (rewriteDims sec dims)).map _ = _
      rw [ih dims h, map_map]
      rfl
    | triplet lo hi stride =>
      rw [tripletCount_triplet] at h
      cases dims with
      | nil => simp at h
      | cons a dims =>
        simp only [length_cons, Nat.add_right_cancel_iff] at h
        cases a with
        | scalar i =>
          simp only [rewriteDims, points]
          rw [ih dims h, map_map, map_map, eval_shift]
          rfl
        | triplet l r s =>
          simp only [rewriteDims, points]
          rw [ih dims h, flatMap_map, map_flatMap, eval_shift, eval_shift, tripletRange_shift]
          apply flatMap_congr
          intro is _
          rw [map_map, map_map]
          rfl

/-! ## The elements addressed -/

/-- The frame whose positions are those of the copy, as the rewrite reads an index list. -/
def Source.frame (env : ℕ → ℤ) : Source → Frame
  | .sectionOf record dg => sectionFrame env ((foldable record dg).getD [])
  | .member box => box

/-- The source element the rewrite makes of an index list. -/
def Source.place (env : ℕ → ℤ) : Source → List ℤ → List ℤ
  | .sectionOf record dg, is => toParent env ((foldable record dg).getD []) is
  | .member _, is => is

/-- The pass folds accesses of this rank. -/
def Source.takes (source : Source) (rank : ℕ) : Prop :=
  match source with
  | .sectionOf record dg => ∃ sec, foldable record dg = some sec ∧ rank = tripletCount sec
  | .member _ => True

/-- Every element the access names is one of the alias and of the copy. -/
def InCopy (env : ℕ → ℤ) (source : Source) (x : Folded) : Prop :=
  ∀ is ∈ x.use.points env, Within x.frame is ∧ position x.frame is < (source.copied env).length

/-- The new access names, one by one, the source elements that the copy has at the alias
positions. -/
def Addresses (env : ℕ → ℤ) (source : Source) (x : Folded) : Prop :=
  InCopy env source x →
    (x.use.points env).map (fun is => (source.copied env)[position x.frame is]?) =
      (x.new.points env).map some

theorem copied_eq {rank : ℕ} (h : source.takes rank) :
    (source.copied env).length = size (source.frame env) ∧
      ∀ q < size (source.frame env),
        (source.copied env)[q]? = some (source.place env (indexAt (source.frame env) q)) := by
  cases source with
  | sectionOf record dg =>
    obtain ⟨sec, hsec, -⟩ := h
    obtain ⟨hdims, hone⟩ := foldable_eq hsec
    have hpoints : dg.points env = points env sec := by
      unfold Designate.points
      rw [hdims]
    simp only [Source.copied, Source.frame, Source.place, hpoints, hsec, Option.getD_some]
    exact points_section env sec hone
  | member box =>
    refine ⟨by simp [Source.copied, Source.frame], ?_⟩
    intro q hq
    have hrange : (List.range (size box))[q]? = some q := List.getElem?_range hq
    simp only [Source.copied, List.getElem?_map, hrange]
    rfl

theorem place_injective (h : source.takes is.length)
    (hj : js.length = (source.frame env).length) (he : source.place env is = source.place env js) :
    is = js := by
  cases source with
  | sectionOf record dg =>
    obtain ⟨sec, hsec, hi⟩ := h
    simp only [Source.place, Source.frame, hsec, Option.getD_some, sectionFrame_length] at he hj
    exact toParent_injective env sec hi hj he
  | member box => exact he

theorem points_length (dims : List DimIdx) : ∀ is ∈ points env dims, is.length = dims.length := by
  induction dims with
  | nil =>
    intro is h
    rw [mem_singleton.1 h]
    rfl
  | cons d dims ih =>
    intro is h
    cases d with
    | scalar i =>
      obtain ⟨js, hj, rfl⟩ := mem_map.1 h
      exact congrArg (· + 1) (ih js hj)
    | triplet lo hi stride =>
      obtain ⟨js, hj, h⟩ := mem_flatMap.1 h
      obtain ⟨i, -, rfl⟩ := mem_map.1 h
      exact congrArg (· + 1) (ih js hj)

theorem exists_of_mapM {α β : Type} {f : α → Option β} {l : List α} {r : List β}
    (h : l.mapM f = some r)
    {y : β} (hy : y ∈ r) : ∃ x ∈ l, f x = some y := by
  induction l generalizing r with
  | nil =>
    cases h
    cases hy
  | cons x l ih =>
    rw [mapM_cons] at h
    obtain ⟨y', hy', h⟩ := Option.bind_eq_some_iff.1 h
    obtain ⟨r', hr', h⟩ := Option.bind_eq_some_iff.1 h
    cases h
    rcases mem_cons.1 hy with rfl | hy
    · exact ⟨x, mem_cons_self, hy'⟩
    · obtain ⟨x', hx', he⟩ := ih hr' hy
      exact ⟨x', mem_cons_of_mem _ hx', he⟩

/-- A folded access names the places of its elements; they have a rank the pass folds. -/
theorem tryFold_places {decl : Alias} {r : List Folded}
    (h : tryFold source decl = some r) {x : Folded} (hx : x ∈ r) :
    x.new.points env = (x.use.points env).map (source.place env) ∧
      ∀ is ∈ x.use.points env, source.takes is.length := by
  cases source with
  | sectionOf record dg =>
    simp only [tryFold] at h
    rw [Option.bind_eq_some_iff] at h
    obtain ⟨sec, hsec, h⟩ := h
    rw [Option.bind_eq_some_iff] at h
    obtain ⟨u, -, h⟩ := h
    split_ifs at h with hd
    obtain ⟨p, -, hp⟩ := exists_of_mapM h hx
    rw [Option.map_eq_some_iff] at hp
    obtain ⟨new, hnew, rfl⟩ := hp
    unfold rewriteAccess at hnew
    rw [Option.bind_eq_some_iff] at hnew
    obtain ⟨dims, hdims, hnew⟩ := hnew
    split_ifs at hnew with hrank
    cases hnew
    have huse : p.2.points env = points env dims := by
      unfold Designate.points
      rw [hdims]
    constructor
    · show Designate.points _ env = (p.2.points env).map (Source.place env (.sectionOf record dg))
      rw [huse]
      unfold Designate.points
      rw [accessDims_ofDims]
      have hplace : Source.place env (.sectionOf record dg) = toParent env sec := by
        funext is
        simp only [Source.place, hsec, Option.getD_some]
      rw [hplace]
      exact points_rewriteDims env sec dims hrank
    · intro is his
      change is ∈ p.2.points env at his
      rw [huse] at his
      exact ⟨sec, hsec, (points_length env dims is his).trans hrank⟩
  | member box =>
    simp only [tryFold] at h
    rw [Option.bind_eq_some_iff] at h
    obtain ⟨u, -, h⟩ := h
    split_ifs at h with hd
    simp only [Option.some.injEq] at h
    subst h
    obtain ⟨p, -, rfl⟩ := mem_map.1 hx
    refine ⟨?_, fun _ _ => trivial⟩
    show _ = (p.2.points env).map fun is => is
    rw [map_id']

/-! ## The exact condition -/

/-- An access to one element. -/
def elementAccess (is : List ℤ) : Designate := ⟨none, is.map .const⟩

theorem points_elementAccess (is : List ℤ) : (elementAccess is).points env = [is] := by
  show points env ((is.map Value.const).map DimIdx.scalar) = [is]
  induction is with
  | nil => rfl
  | cons i is ih =>
    show (points env ((is.map Value.const).map DimIdx.scalar)).map (fun js => i :: js) = _
    rw [ih]
    rfl

/-- An element access of a rank the pass folds is folded. -/
theorem tryFold_element (h : source.takes is.length) (frame : Frame) :
    ∃ new, tryFold source (.mk frame [elementAccess is] [] false []) =
      some [⟨frame, elementAccess is, new⟩] := by
  cases source with
  | sectionOf record dg =>
    obtain ⟨sec, hsec, hrank⟩ := h
    have hdims : accessDims (elementAccess is) =
      some ((is.map Value.const).map DimIdx.scalar) := rfl
    refine ⟨ofDims (rewriteDims sec ((is.map Value.const).map DimIdx.scalar)), ?_⟩
    simp [tryFold, hsec, collectAliasUses, collectAll, rewriteAccess, hdims, hrank]
  | member box =>
    refine ⟨elementAccess is, ?_⟩
    simp [tryFold, collectAliasUses, collectAll]

/-- **Every access the pass folds names the elements of the copy exactly if the alias fits the frame
the rewrite counts in: lower bounds of one for a section, those of the member box otherwise, and the
extents in front.** -/
theorem fold_addresses_iff (source : Source) (env : ℕ → ℤ) (frame : Frame) :
    (∀ decl r, tryFold source decl = some r → ∀ x ∈ r, x.frame = frame → Addresses env source x) ↔
      (source.takes frame.length → 0 < size frame → 0 < size (source.frame env) →
        Fits frame (source.frame env)) := by
  constructor
  · intro h htakes hf hg
    apply fits_of_keepsPositions hf hg
    intro is hw hp
    have htakes' : source.takes is.length := by
      rw [hw.length]
      exact htakes
    obtain ⟨hlen, hget⟩ := copied_eq env htakes
    obtain ⟨new, hfold⟩ := tryFold_element htakes' frame
    have hx := h _ _ hfold _ List.mem_cons_self rfl
    obtain ⟨hnew, -⟩ := tryFold_places env hfold List.mem_cons_self
    -- the one element of the access
    have hin : InCopy env source ⟨frame, elementAccess is, new⟩ := by
      intro js hj
      rw [points_elementAccess] at hj
      rw [List.mem_singleton.1 hj, hlen]
      exact ⟨hw, hp⟩
    have he := hx hin
    rw [hnew, points_elementAccess] at he
    simp only [List.map_cons, List.map_nil, List.cons.injEq, and_true] at he
    rw [hget _ hp, Option.some.injEq] at he
    have hsame := place_injective env htakes' (indexAt_length _ _) he.symm
    obtain ⟨hw', hp'⟩ := indexAt_spec (source.frame env) (position frame is) hp
    rw [← hsame] at hw' hp'
    exact ⟨hw', hp'⟩
  · intro h decl r hfold x hx hframe hin
    obtain ⟨hnew, htakes⟩ := tryFold_places env hfold hx
    rw [hnew, List.map_map]
    apply List.map_congr_left
    intro is his
    obtain ⟨hw, hp⟩ := hin is his
    have htakes' := htakes is his
    obtain ⟨hlen, hget⟩ := copied_eq env htakes'
    rw [hframe] at hw hp ⊢
    rw [hlen] at hp
    have hf : 0 < size frame := Nat.zero_lt_of_lt (indexAt_position frame is hw).2
    have hg : 0 < size (source.frame env) := Nat.zero_lt_of_lt hp
    have hfit := h (by rw [← hw.length]; exact htakes') hf hg
    obtain ⟨hw', hp'⟩ := keepsPositions_of_fits hg hfit is hw hp
    rw [hget _ hp, ← hp', (indexAt_position _ is hw').1]
    rfl

/-! ## A dummy with other bounds -/

/-- `arr(7, 3:5)` for a dummy declared `v(0:2)`. -/
def rowSection : Designate := ⟨some [false, true], [.const 7, .const 3, .const 5, .const 1]⟩

/-- The element `v(0)` is folded to `arr(7, 2)`; the copy has `arr(7, 3)` there. -/
theorem not_addresses_zeroBased :
    ¬ ∀ decl r, tryFold (.sectionOf false rowSection) decl = some r → ∀ x ∈ r,
      Addresses (fun _ => 0) (.sectionOf false rowSection) x := by
  intro h
  have hx := h (.mk [⟨0, 3⟩] [elementAccess [0]] [] false []) _ rfl _ List.mem_cons_self
  have hin : InCopy (fun _ => 0) (.sectionOf false rowSection)
      ⟨[⟨0, 3⟩], elementAccess [0],
        ofDims [.scalar (.const 7), .scalar (.add (.const 0) (.sub (.const 3) (.const 1)))]⟩ := by
    intro is his
    rw [points_elementAccess] at his
    rw [List.mem_singleton.1 his]
    exact ⟨⟨⟨by decide, by decide⟩, trivial⟩, by decide⟩
  exact absurd (hx hin) (by decide)

end CopyFold
