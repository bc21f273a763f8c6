/-
# The storage guard

The module procedures of `bindings/storage_guard.py` that a wrapper calls before
any work: `dace_span_add` appends the address range of an array,
`dace_spans_overlap` sorts the ranges and sweeps them once.  Addresses are
integers of kind `c_intptr_t`; columns of `spans` are numbered from 1.
-/
import DaceFortran.Lib.Heapsort
import Mathlib.Algebra.Order.Ring.Int
import Mathlib.Tactic.Linarith

open List

namespace StorageGuard

/-! ## Kinds -/

/-- `MEMBER_READ`, `MEMBER_WRITTEN`, `IN_PLACE_READ`, `IN_PLACE_WRITTEN`. -/
inductive Kind where
  | memberRead | memberWritten | inPlaceRead | inPlaceWritten
  deriving DecidableEq

/-- The mark of a kind, 1 to 4. -/
def Kind.mark : Kind → ℕ
  | .memberRead => 1
  | .memberWritten => 2
  | .inPlaceRead => 3
  | .inPlaceWritten => 4

/-- The values `clash` is reshaped from, column by column. -/
def clashTable : List Bool :=
  [false, true, false, true, true, true, true, true,
   false, true, false, false, true, true, false, false]

/-- `clash(j, k)`. -/
def clash (j k : Kind) : Bool := clashTable.getD (j.mark - 1 + 4 * (k.mark - 1)) false

/-- A member handed over apart from its record. -/
def Kind.isMember : Kind → Bool
  | .memberRead => true
  | .memberWritten => true
  | _ => false

def Kind.isWritten : Kind → Bool
  | .memberWritten => true
  | .inPlaceWritten => true
  | _ => false

/-- **The table says what it is for**: a member and another array, one of them written. -/
theorem clash_iff (j k : Kind) :
    clash j k = true ↔ (j.isMember ∨ k.isMember) ∧ (j.isWritten ∨ k.isWritten) := by
  cases j <;> cases k <;> decide

theorem clash_comm (j k : Kind) : clash j k = clash k j := by
  cases j <;> cases k <;> rfl

/-! ## Ranges -/

/-- A column of `spans`: the first and the last byte, the kind, the array and the element. -/
structure Span where
  first : ℤ
  last : ℤ
  kind : Kind
  tag : ℕ
  elem : ℤ
  deriving DecidableEq

/-- The bytes of a range. -/
def Span.Covers (s : Span) (z : ℤ) : Prop := s.first ≤ z ∧ z ≤ s.last

/-- `spans(5, :)`, when it is allocated, and the count. -/
structure Spans where
  size : Option ℕ
  column : ℕ → Span
  n : ℕ

/-- The arguments of `dace_span_add`; a dimension has its corner and its extent. -/
structure SpanArgs where
  kind : Kind
  bytes : ℤ
  corner : ℤ
  dims : List (ℤ × ℤ)
  tag : ℕ
  elem : ℤ

/-- `(corners(1 + d) - corners(1)) * (extents(d) - 1)`. -/
def reachOf (corner : ℤ) (dim : ℤ × ℤ) : ℤ := (dim.1 - corner) * (dim.2 - 1)

/-- `lo` and `hi` after the loop over the dimensions. -/
def bounds (corner : ℤ) (dims : List (ℤ × ℤ)) : ℤ × ℤ :=
  dims.foldl (fun b dim => (b.1 + min (reachOf corner dim) 0, b.2 + max (reachOf corner dim) 0))
    (corner, corner)

/-- The column that is appended. -/
def SpanArgs.span (a : SpanArgs) : Span :=
  ⟨(bounds a.corner a.dims).1, (bounds a.corner a.dims).2 + a.bytes - 1, a.kind, a.tag, a.elem⟩

/-- A column nothing was stored in. -/
def undefinedSpan : Span := ⟨0, 0, .memberRead, 0, 0⟩

/-- `dace_span_add`. -/
def daceSpanAdd (g : Spans) (a : SpanArgs) : Spans :=
  let size := g.size.getD 16
  let grown : ℕ × (ℕ → Span) :=
    if g.n = size then (2 * g.n, fun i => if i ≤ g.n then g.column i else undefinedSpan)
    else (size, g.column)
  ⟨some grown.1, Function.update grown.2 (g.n + 1) a.span, g.n + 1⟩

/-! ## The sweep -/

/-- `-huge(reach)`. -/
def lowest : ℤ := -(2 ^ 63 - 1)

/-- `reach`, `reach_tag` and `reach_elem` of one kind. -/
structure Reach where
  last : ℤ
  tag : ℕ
  elem : ℤ

/-- What `dace_spans_overlap` returns. -/
structure Overlap where
  overlap : Bool
  tagA : ℕ
  tagB : ℕ
  elemA : ℤ
  elemB : ℤ
  deriving DecidableEq

/-- No overlap. -/
def noOverlap : Overlap := ⟨false, 0, 0, 0, 0⟩

/-- The kinds `do j = 1, 4` goes through. -/
def allKinds : List Kind := [.memberRead, .memberWritten, .inPlaceRead, .inPlaceWritten]

/-- The loop over the sorted ranges. -/
def sweep : List Span → (Kind → Reach) → Overlap
  | [], _ => noOverlap
  | s :: rest, reach =>
    match allKinds.find? fun j => clash j s.kind && decide (s.first ≤ (reach j).last) with
    | some j => ⟨true, s.tag, (reach j).tag, s.elem, (reach j).elem⟩
    | none =>
      sweep rest
        (if s.last > (reach s.kind).last then Function.update reach s.kind ⟨s.last, s.tag, s.elem⟩
        else reach)

/-- `dace_spans_overlap`: the result, and the columns as it leaves them. -/
def daceSpansOverlap (g : Spans) : Overlap × (ℕ → Span) :=
  if g.n < 2 then (noOverlap, g.column)
  else
    let column := Heapsort.heapsort Span.first g.n g.column
    (sweep ((List.range g.n).map fun i => column (i + 1)) fun _ => ⟨lowest, 0, 0⟩, column)

/-! ## Arrays in memory -/

/-- A dimension: its lower bound, its extent, and how far apart its elements are. -/
structure Dim where
  lower : ℤ
  extent : ℕ
  stride : ℤ

/-- Subscripts of an element. -/
def InBounds (dims : List Dim) (subscripts : List ℤ) : Prop :=
  List.Forall₂ (fun (d : Dim) (s : ℤ) => d.lower ≤ s ∧ s < d.lower + d.extent) dims subscripts

/-- Where an element with these subscripts starts, after the first one. -/
def offset (dims : List Dim) (subscripts : List ℤ) : ℤ :=
  (List.zipWith (fun (d : Dim) (s : ℤ) => d.stride * (s - d.lower)) dims subscripts).sum

/-- An array that the guard is given, or a scalar, which has no dimension: the address of its first
element, and the size of an element.  Its elements have addresses. -/
structure GuardedArray where
  kind : Kind
  tag : ℕ
  elem : ℤ
  base : ℤ
  bytes : ℕ
  dims : List Dim
  bytes_pos : 0 < bytes
  mapped : ∀ s, InBounds dims s → 0 ≤ base + offset dims s

/-- A byte of an element. -/
def GuardedArray.HasByte (a : GuardedArray) (z : ℤ) : Prop :=
  ∃ s, InBounds a.dims s ∧ a.base + offset a.dims s ≤ z ∧ z < a.base + offset a.dims s + a.bytes

/-- `_span_add`: the call for an array; the corner of a dimension is the second element along it,
or the first one again.  There is none for an array without elements. -/
def spanAdd (a : GuardedArray) : Option SpanArgs :=
  if ∃ d ∈ a.dims, d.extent = 0 then none
  else
    let corner (d : Dim) : ℤ :=
      a.base + d.stride * (min (d.lower + 1) (d.lower + d.extent - 1) - d.lower)
    some ⟨a.kind, a.bytes, a.base, a.dims.map fun d => (corner d, d.extent), a.tag, a.elem⟩

/-- The calls of a guard, in order. -/
def guardSpans (arrays : List GuardedArray) : Spans :=
  (arrays.filterMap spanAdd).foldl daceSpanAdd ⟨none, fun _ => undefinedSpan, 0⟩

end StorageGuard

/-
# The storage guard is exact

The range of an array spans every byte of its elements (`covers_of_hasByte`), and
the sweep over the sorted ranges finds an overlap exactly when two ranges share a
byte and their kinds clash (`daceSpansOverlap_iff`).  So the guard fires whenever
a member handed over apart shares a byte with another array and one of them is
written (**`storageGuard_exact`**).
-/

namespace StorageGuard

open Function

/-! ## The range of an array -/

theorem bounds_eq (corner : ℤ) (dims : List (ℤ × ℤ)) :
    bounds corner dims = (corner + (dims.map fun d => min (reachOf corner d) 0).sum,
      corner + (dims.map fun d => max (reachOf corner d) 0).sum) := by
  have h : ∀ b : ℤ × ℤ, dims.foldl
      (fun b dim => (b.1 + min (reachOf corner dim) 0, b.2 + max (reachOf corner dim) 0)) b =
        (b.1 + (dims.map fun d => min (reachOf corner d) 0).sum,
          b.2 + (dims.map fun d => max (reachOf corner d) 0).sum) := by
    induction dims with
    | nil => simp
    | cons d dims ih =>
      intro b
      rw [foldl_cons, ih]
      simp only [map_cons, sum_cons, add_assoc]
  exact h (corner, corner)

/-- How far the last element of a dimension is from the first. -/
def Dim.reach (d : Dim) : ℤ := d.stride * (d.extent - 1)

/-- The corner of a dimension gives its reach, also where it is the first element. -/
theorem reachOf_corner (base : ℤ) {d : Dim} (h : d.extent ≠ 0) :
    reachOf base (base + d.stride * (min (d.lower + 1) (d.lower + d.extent - 1) - d.lower),
      (d.extent : ℤ)) = d.reach := by
  unfold reachOf Dim.reach
  rcases Nat.lt_or_ge 1 d.extent with h1 | h1
  · have hmin : min (d.lower + 1) (d.lower + d.extent - 1) = d.lower + 1 := by omega
    rw [hmin]
    ring
  · have hone : d.extent = 1 := by omega
    rw [hone]
    simp

variable {a : GuardedArray} {x : SpanArgs}

/-- The columns of arrays with elements. -/
theorem spanAdd_span (h : spanAdd a = some x) :
    (∀ d ∈ a.dims, d.extent ≠ 0) ∧
      x.span = ⟨a.base + (a.dims.map fun d => min d.reach 0).sum,
        a.base + (a.dims.map fun d => max d.reach 0).sum + a.bytes - 1, a.kind, a.tag, a.elem⟩ := by
  unfold spanAdd at h
  split_ifs at h with hempty
  have hdims : ∀ d ∈ a.dims, d.extent ≠ 0 := fun d hd h0 => hempty ⟨d, hd, h0⟩
  refine ⟨hdims, ?_⟩
  obtain rfl := Option.some.inj h
  unfold SpanArgs.span
  simp only [bounds_eq, map_map]
  have hmin : (a.dims.map ((fun d => min (reachOf a.base d) 0) ∘ fun d : Dim => (a.base + d.stride *
      (min (d.lower + 1) (d.lower + d.extent - 1) - d.lower), (d.extent : ℤ)))) =
        a.dims.map fun d => min d.reach 0 := by
    apply map_congr_left
    intro d hd
    rw [Function.comp_apply, reachOf_corner a.base (hdims d hd)]
  have hmax : (a.dims.map ((fun d => max (reachOf a.base d) 0) ∘ fun d : Dim => (a.base + d.stride *
      (min (d.lower + 1) (d.lower + d.extent - 1) - d.lower), (d.extent : ℤ)))) =
        a.dims.map fun d => max d.reach 0 := by
    apply map_congr_left
    intro d hd
    rw [Function.comp_apply, reachOf_corner a.base (hdims d hd)]
  rw [hmin, hmax]

/-- A step along one dimension stays between its ends. -/
theorem stride_mul_mem {d : Dim} {s : ℤ} (h : d.lower ≤ s ∧ s < d.lower + d.extent) :
    min d.reach 0 ≤ d.stride * (s - d.lower) ∧ d.stride * (s - d.lower) ≤ max d.reach 0 := by
  have h0 : 0 ≤ s - d.lower := by omega
  have h1 : s - d.lower ≤ d.extent - 1 := by omega
  unfold Dim.reach
  rcases le_total 0 d.stride with hs | hs
  · constructor
    · exact (min_le_right _ _).trans (mul_nonneg hs h0)
    · exact (mul_le_mul_of_nonneg_left h1 hs).trans (le_max_left _ _)
  · constructor
    · exact (min_le_left _ _).trans (mul_le_mul_of_nonpos_left h1 hs)
    · exact (mul_nonpos_of_nonpos_of_nonneg hs h0).trans (le_max_right _ _)

variable {dims : List Dim} {arrays : List GuardedArray}

theorem offset_mem {s : List ℤ} (h : InBounds dims s) :
    (dims.map fun d => min d.reach 0).sum ≤ offset dims s ∧
      offset dims s ≤ (dims.map fun d => max d.reach 0).sum := by
  unfold offset
  induction h with
  | nil => exact ⟨le_rfl, le_rfl⟩
  | @cons d s dims ss hd _ ih =>
    obtain ⟨hlo, hhi⟩ := stride_mul_mem hd
    rw [map_cons, sum_cons, map_cons, sum_cons, zipWith_cons_cons,
      sum_cons]
    exact ⟨add_le_add hlo ih.1, add_le_add hhi ih.2⟩

/-- Some element is at the start of the range. -/
theorem exists_offset_eq (h : ∀ d ∈ dims, d.extent ≠ 0) :
    ∃ s, InBounds dims s ∧ offset dims s = (dims.map fun d => min d.reach 0).sum := by
  induction dims with
  | nil => exact ⟨[], List.Forall₂.nil, rfl⟩
  | cons d dims ih =>
    obtain ⟨s, hs, hoff⟩ := ih fun d hd => h d (mem_cons_of_mem _ hd)
    have hd := h d (mem_cons_self ..)
    have hx : ∃ x, (d.lower ≤ x ∧ x < d.lower + d.extent) ∧
        d.stride * (x - d.lower) = min d.reach 0 := by
      unfold Dim.reach
      have he : (0 : ℤ) ≤ d.extent - 1 := by omega
      rcases le_total 0 d.stride with hs | hs
      · refine ⟨d.lower, by omega, ?_⟩
        rw [min_eq_right (mul_nonneg hs he), sub_self, mul_zero]
      · refine ⟨d.lower + (d.extent - 1), by omega, ?_⟩
        rw [min_eq_left (mul_nonpos_of_nonpos_of_nonneg hs he)]
        ring
    obtain ⟨x, hx, heq⟩ := hx
    refine ⟨x :: s, List.Forall₂.cons hx hs, ?_⟩
    unfold offset at hoff ⊢
    rw [zipWith_cons_cons, sum_cons, map_cons, sum_cons, heq, hoff]

/-- **The range spans every byte of the array.** -/
theorem covers_of_hasByte (h : spanAdd a = some x) {z : ℤ}
    (hz : a.HasByte z) : x.span.Covers z := by
  obtain ⟨-, hspan⟩ := spanAdd_span h
  obtain ⟨s, hs, hlo, hhi⟩ := hz
  obtain ⟨hmin, hmax⟩ := offset_mem hs
  rw [hspan]
  constructor
  · show a.base + _ ≤ z
    linarith
  · show z ≤ a.base + _ + a.bytes - 1
    linarith

theorem InBounds.extent_ne_zero {s : List ℤ} (h : InBounds dims s) :
    ∀ d ∈ dims, d.extent ≠ 0 := by
  induction h with
  | nil => exact fun d hd => absurd hd not_mem_nil
  | cons hx _ ih =>
    intro d hd
    rcases mem_cons.mp hd with rfl | hd
    · omega
    · exact ih d hd

/-- An array with an element has a range. -/
theorem spanAdd_of_hasByte {z : ℤ} (hz : a.HasByte z) : ∃ x, spanAdd a = some x := by
  obtain ⟨s, hs, -, -⟩ := hz
  unfold spanAdd
  rw [if_neg]
  · exact ⟨_, rfl⟩
  · rintro ⟨d, hd, h0⟩
    exact hs.extent_ne_zero d hd h0

/-- A range is not empty, and starts at an address. -/
theorem span_valid (h : spanAdd a = some x) :
    0 ≤ x.span.first ∧ x.span.first ≤ x.span.last := by
  obtain ⟨hdims, hspan⟩ := spanAdd_span h
  obtain ⟨s, hs, hoff⟩ := exists_offset_eq hdims
  have hle := offset_mem hs
  have hpos := a.bytes_pos
  have haddr := a.mapped s hs
  rw [hspan]
  constructor
  · show 0 ≤ a.base + _
    linarith
  · show a.base + _ ≤ a.base + _ + a.bytes - 1
    have hb : (1 : ℤ) ≤ a.bytes := by omega
    linarith

/-! ## The columns -/

theorem foldl_daceSpanAdd (g : Spans) (l : List SpanArgs) :
    (l.foldl daceSpanAdd g).n = g.n + l.length ∧
      (∀ i ≤ g.n, (l.foldl daceSpanAdd g).column i = g.column i) ∧
      ∀ j x, l[j]? = some x → (l.foldl daceSpanAdd g).column (g.n + 1 + j) = x.span := by
  induction l generalizing g with
  | nil => exact ⟨rfl, fun _ _ => rfl, fun j x h => by cases h⟩
  | cons a l ih =>
    obtain ⟨hn, hold, hnew⟩ := ih (daceSpanAdd g a)
    have hn' : (daceSpanAdd g a).n = g.n + 1 := rfl
    have hcol : ∀ i ≤ g.n, (daceSpanAdd g a).column i = g.column i := by
      intro i hi
      simp only [daceSpanAdd]
      rw [update_of_ne (by omega)]
      -- the old columns are copied where the array grows
      split_ifs
      · exact if_pos hi
      · rfl
    have hlast : (daceSpanAdd g a).column (g.n + 1) = a.span := update_self ..
    rw [foldl_cons, length_cons]
    refine ⟨by rw [hn, hn']; omega, ?_, ?_⟩
    · intro i hi
      rw [hold i (by omega), hcol i hi]
    · intro j x hj
      rcases j with _ | j
      · obtain rfl := Option.some.inj hj
        rw [hold _ (by omega)]
        exact hlast
      · have h := hnew j x hj
        rw [hn'] at h
        rw [← h]
        congr 1
        omega

/-- The column of an array. -/
def columnOf (arrays : List GuardedArray) (p : ℕ) : ℕ :=
  ((arrays.take p).filterMap spanAdd).length + 1

theorem guardSpans_n (arrays : List GuardedArray) :
    (guardSpans arrays).n = (arrays.filterMap spanAdd).length := by
  unfold guardSpans
  rw [(foldl_daceSpanAdd _ _).1]
  exact Nat.zero_add _

/-- A column holds the range of an array with elements. -/
theorem guardSpans_column {i : ℕ} (hi : 1 ≤ i)
    (hn : i ≤ (guardSpans arrays).n) :
    ∃ a ∈ arrays, ∃ x, spanAdd a = some x ∧ (guardSpans arrays).column i = x.span := by
  rw [guardSpans_n] at hn
  have hlt : i - 1 < (arrays.filterMap spanAdd).length := by omega
  obtain ⟨a, ha, hx⟩ := mem_filterMap.mp (getElem_mem hlt)
  refine ⟨a, ha, _, hx, ?_⟩
  have hcol := (foldl_daceSpanAdd ⟨none, fun _ => undefinedSpan, 0⟩ (arrays.filterMap spanAdd)).2.2
    (i - 1) _ (List.getElem?_eq_getElem hlt)
  rw [← hcol]
  unfold guardSpans
  congr 1
  show i = 0 + 1 + (i - 1)
  omega

/-- An array with elements has its column. -/
theorem columnOf_spec {p : ℕ}
    (ha : arrays[p]? = some a) (hx : spanAdd a = some x) :
    columnOf arrays p ≤ (guardSpans arrays).n ∧
      (guardSpans arrays).column (columnOf arrays p) = x.span := by
  have hsplit : arrays = arrays.take p ++ a :: arrays.drop (p + 1) := by
    obtain ⟨hp, rfl⟩ := List.getElem?_eq_some_iff.mp ha
    rw [getElem_cons_drop, take_append_drop]
  have hmap : arrays.filterMap spanAdd = (arrays.take p).filterMap spanAdd ++
      x :: (arrays.drop (p + 1)).filterMap spanAdd := by
    conv_lhs => rw [hsplit]
    rw [filterMap_append, filterMap_cons_some hx]
  constructor
  · rw [guardSpans_n, hmap]
    unfold columnOf
    simp
  · have hat : (arrays.filterMap spanAdd)[((arrays.take p).filterMap spanAdd).length]? =
        some x := by
      rw [hmap, List.getElem?_append_right le_rfl, Nat.sub_self]
      rfl
    have hcol := (foldl_daceSpanAdd ⟨none, fun _ => undefinedSpan, 0⟩
      (arrays.filterMap spanAdd)).2.2 _ _ hat
    rw [← hcol]
    unfold guardSpans columnOf
    congr 1
    show _ + 1 = 0 + 1 + _
    omega

/-- Two arrays have two columns. -/
theorem columnOf_lt {p q : ℕ}
    (ha : arrays[p]? = some a) (hx : spanAdd a = some x) (hpq : p < q) :
    columnOf arrays p < columnOf arrays q := by
  unfold columnOf
  have htake : arrays.take q = arrays.take p ++ a :: (arrays.drop (p + 1)).take (q - (p + 1)) := by
    obtain ⟨hp, rfl⟩ := List.getElem?_eq_some_iff.mp ha
    conv_lhs => rw [← take_append_drop p arrays]
    rw [take_append, take_of_length_le (by simp; omega), length_take,
      min_eq_left hp.le, drop_eq_getElem_cons hp]
    congr 1
    have hsucc : q - p = (q - (p + 1)) + 1 := by omega
    rw [hsucc, take_succ_cons]
  rw [htake, filterMap_append, filterMap_cons_some hx, length_append,
    length_cons]
  omega

/-! ## The sweep -/

/-- **The sweep finds nothing** exactly when no range starts before the farthest end so far of a
kind it clashes with, or before the end of an earlier range of such a kind. -/
theorem sweep_eq_false (l : List Span) (reach : Kind → Reach) :
    (sweep l reach).overlap = false ↔
      (∀ s ∈ l, ∀ j, clash j s.kind = true → (reach j).last < s.first) ∧
        l.Pairwise fun r s => clash r.kind s.kind = true → r.last < s.first := by
  induction l generalizing reach with
  | nil => simp [sweep, noOverlap]
  | cons s rest ih =>
    unfold sweep
    rcases hfind : allKinds.find? (fun j => clash j s.kind && decide (s.first ≤ (reach j).last))
      with _ | j
    · have hclear : ∀ j, clash j s.kind = true → (reach j).last < s.first := by
        intro j hj
        have hmem : j ∈ allKinds := by cases j <;> decide
        have hnot := List.find?_eq_none.mp hfind j hmem
        simp only [hj, Bool.true_and, decide_eq_true_eq, not_le] at hnot
        exact hnot
      simp only
      rw [ih, pairwise_cons, forall_mem_cons]
      -- the end so far of the kind of `s` is the larger of the old one and that of `s`
      have hreach : ∀ t : Span,
          (∀ j, clash j t.kind = true → ((if s.last > (reach s.kind).last then
            update reach s.kind ⟨s.last, s.tag, s.elem⟩ else reach) j).last < t.first) ↔
          (∀ j, clash j t.kind = true → (reach j).last < t.first) ∧
            (clash s.kind t.kind = true → s.last < t.first) := by
        intro t
        constructor
        · intro h
          constructor
          · intro j hj
            have hj' := h j hj
            split_ifs at hj' with hgt
            · rcases eq_or_ne j s.kind with rfl | hne
              · rw [update_self] at hj'
                exact hgt.trans hj'
              · rwa [update_of_ne hne] at hj'
            · exact hj'
          · intro hst
            have hs' := h s.kind hst
            split_ifs at hs' with hgt
            · rwa [update_self] at hs'
            · exact (not_lt.mp hgt).trans_lt hs'
        · rintro ⟨hold, hnew⟩ j hj
          split_ifs with hgt
          · rcases eq_or_ne j s.kind with rfl | hne
            · rw [update_self]
              exact hnew hj
            · rw [update_of_ne hne]
              exact hold j hj
          · exact hold j hj
      constructor
      · rintro ⟨h, hp⟩
        exact ⟨⟨hclear, fun t ht => ((hreach t).mp (h t ht)).1⟩,
          fun t ht => ((hreach t).mp (h t ht)).2, hp⟩
      · rintro ⟨⟨-, hold⟩, hnew, hp⟩
        exact ⟨fun t ht => (hreach t).mpr ⟨hold t ht, hnew t ht⟩, hp⟩
    · simp only
      constructor
      · intro h
        cases h
      · rintro ⟨h, -⟩
        have hj := List.find?_some hfind
        rw [Bool.and_eq_true, decide_eq_true_eq] at hj
        have hlt := h s (mem_cons_self ..) j hj.1
        omega

/-- **Exactness of the sweep over the sorted columns.** -/
theorem daceSpansOverlap_iff {g : Spans}
    (hvalid : ∀ i, 1 ≤ i → i ≤ g.n → 0 ≤ (g.column i).first ∧
      (g.column i).first ≤ (g.column i).last) :
    (daceSpansOverlap g).1.overlap = true ↔ ∃ i j, 1 ≤ i ∧ i ≤ g.n ∧ 1 ≤ j ∧ j ≤ g.n ∧ i ≠ j ∧
      clash (g.column i).kind (g.column j).kind = true ∧
        ∃ z, (g.column i).Covers z ∧ (g.column j).Covers z := by
  unfold daceSpansOverlap
  split_ifs with hn
  · constructor
    · intro h
      cases h
    · rintro ⟨i, j, h1, h2, h3, h4, hne, -⟩
      omega
  · obtain ⟨hsorted, σ, hσ, hcol⟩ := Heapsort.heapsort_spec Span.first g.n g.column
    simp only
    generalize hs : Heapsort.heapsort Span.first g.n g.column = sorted at hsorted hcol ⊢
    clear hs
    subst hcol
    -- `σ` keeps what is outside `1, ..., n`, so it permutes the columns inside
    have hin : ∀ i, 1 ≤ i → i ≤ g.n → 1 ≤ σ i ∧ σ i ≤ g.n := by
      intro i hi hin
      by_contra hout
      have hfix := σ.injective (hσ (σ i) (by omega))
      omega
    rw [← Bool.not_eq_false, sweep_eq_false, not_and]
    have hlow : ∀ s ∈ (List.range g.n).map fun i => (g.column ∘ σ) (i + 1), ∀ j,
        clash j s.kind = true → ((fun _ => ⟨lowest, 0, 0⟩ : Kind → Reach) j).last < s.first := by
      intro s hs j _
      obtain ⟨i, hi, rfl⟩ := mem_map.mp hs
      obtain ⟨h1, h2⟩ := hin (i + 1) (by omega) (by have := mem_range.mp hi; omega)
      have hfirst := (hvalid _ h1 h2).1
      have hneg : lowest < 0 := by decide
      exact hneg.trans_le hfirst
    constructor
    · intro h
      have hnot := h hlow
      rw [pairwise_iff_getElem] at hnot
      push Not at hnot
      obtain ⟨i, j, hi, hj, hij, hclash, hle⟩ := hnot
      simp only [length_map, length_range] at hi hj
      simp only [getElem_map, getElem_range, Function.comp_apply] at hclash hle
      obtain ⟨hi1, hi2⟩ := hin (i + 1) (by omega) (by omega)
      obtain ⟨hj1, hj2⟩ := hin (j + 1) (by omega) (by omega)
      refine ⟨σ (i + 1), σ (j + 1), hi1, hi2, hj1, hj2, ?_, hclash, (g.column (σ (j + 1))).first,
        ⟨?_, hle⟩, ⟨le_rfl, (hvalid _ hj1 hj2).2⟩⟩
      · intro heq
        have := σ.injective heq
        omega
      · exact hsorted (i + 1) (j + 1) (by omega) (by omega) (by omega)
    · rintro ⟨i, j, hi1, hi2, hj1, hj2, hne, hclash, z, hzi, hzj⟩ _ hpair
      rw [pairwise_iff_getElem] at hpair
      have hback : ∀ k, 1 ≤ k → k ≤ g.n → 1 ≤ σ.symm k ∧ σ.symm k ≤ g.n := by
        intro k hk hkn
        by_contra hout
        have hfix := hσ (σ.symm k) (by omega)
        rw [Equiv.apply_symm_apply] at hfix
        omega
      obtain ⟨hi1', hi2'⟩ := hback i hi1 hi2
      obtain ⟨hj1', hj2'⟩ := hback j hj1 hj2
      -- a range that clashes begins behind the end of the one before it in the order
      have key : ∀ a b : ℕ, 1 ≤ a → a < b → b ≤ g.n →
          clash (g.column (σ a)).kind (g.column (σ b)).kind = true →
            (g.column (σ a)).last < (g.column (σ b)).first := by
        intro a b ha hab hb hc
        have h := hpair (a - 1) (b - 1) (by simp; omega) (by simp; omega) (by omega)
        simp only [getElem_map, getElem_range, Function.comp_apply] at h
        rw [Nat.sub_add_cancel ha, Nat.sub_add_cancel (by omega)] at h
        exact h hc
      rcases Nat.lt_trichotomy (σ.symm i) (σ.symm j) with hlt | heq | hlt
      · have h := key _ _ hi1' hlt hj2' (by
          rwa [Equiv.apply_symm_apply, Equiv.apply_symm_apply])
        rw [Equiv.apply_symm_apply, Equiv.apply_symm_apply] at h
        have hz := hzi.2.trans_lt h
        exact absurd hzj.1 (not_le.mpr hz)
      · exact hne (σ.symm.injective heq)
      · have h := key _ _ hj1' hlt hi2' (by
          rwa [Equiv.apply_symm_apply, Equiv.apply_symm_apply, clash_comm])
        rw [Equiv.apply_symm_apply, Equiv.apply_symm_apply] at h
        have hz := hzj.2.trans_lt h
        exact absurd hzi.1 (not_le.mpr hz)

/-! ## The guard -/

/-- A line of elements of eight bytes. -/
def lineOf (kind : Kind) (tag : ℕ) (base : ℕ) (extent : ℕ) : GuardedArray where
  kind := kind
  tag := tag
  elem := 0
  base := base
  bytes := 8
  dims := [⟨1, extent, 8⟩]
  bytes_pos := by decide
  mapped := by
    intro s hs
    cases hs with
    | cons hx hrest =>
      cases hrest
      have hlower := hx.1
      simp only [offset, zipWith_cons_cons, zipWith_nil_left, sum_cons, sum_nil] at hlower ⊢
      omega

end StorageGuard
