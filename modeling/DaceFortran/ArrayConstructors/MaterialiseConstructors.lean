/-
# Materialising array constructors

`MaterialiseArrayConstructors.cpp` for the runtime protocol: the pushes of a block are analysed into
items, each becomes stores into a named local array at the running position, and the consumers of
the value read that array.
-/
import DaceFortran.Lib.ArrayOrder
import DaceFortran.Lib.Fallible
import Mathlib.Tactic.Ring

open List

namespace ArrayConstructors

open ArrayOrder

/-- What defines a pushed variable: the place its lower bounds are looked up. -/
inductive Definition where
  | declare | designate | other
  deriving DecidableEq

/-- The operand of `PushArrayConstructorValue`: a variable with its bounds, boxed by an embox
(`some sliced`) or pushed as it is.  `shaped`: a shape gives its extents, and `folded` says which of
them fold to constants. -/
structure Pushed (Var : Type) where
  var : Var
  frame : Frame
  definition : Definition
  embox : Option Bool
  typeparams : Bool
  boxTyped : Bool
  isTrivial : Bool
  shaped : Bool
  folded : List Bool

/-- The operations of the block behind the start of a constructor.  `effect`: an operation without a
push that may change the variables; `onState`: another call on the constructor's state; `nested`: a
region with a push. -/
inductive Op (Var V : Type) where
  | store (slot : ℕ) (v : V)
  | pushScalar (slot : ℕ) (isTrivial : Bool)
  | pushValue (p : Pushed Var)
  | effect (f : (Var → List ℤ → V) → Var → List ℤ → V)
  | onState
  | nested

/-- A user of the constructor's value: an assignment, an element at a position, a reduction of the
whole value, the end of its life. -/
inductive Consumer (V : Type) where
  | assign
  | apply (p : ℕ)
  | reduce (f : List V → V)
  | destroy
  | other

/-- A constructor.  `tempOk`: its temporary has a static rank-1 type of trivial elements, and
nothing uses it but its descriptor, the expressions of the value and `fir.freemem`. -/
structure Ctor (Var V : Type) where
  ops : List (Op Var V)
  tempOk : Bool
  consumers : List (Consumer V)

/-- One item: the value stored into the scratch slot, a boxed scalar, an array with what the pass
knows of it. -/
inductive Item (Var V : Type) where
  | scalar (v : V)
  | boxed (var : Var)
  | array (var : Var) (extents : List ℕ) (folded : List Bool) (lbounds : List ℤ)

/-- What stands in place of an operation: the operation, a store at a position, a loop nest that
stores from a position on. -/
inductive Emit (Var V : Type) where
  | keep (op : Op Var V)
  | scalar (v : V) (pos : ℤ)
  | boxed (var : Var) (pos : ℤ)
  | nest (var : Var) (extents : List ℕ) (lbounds : List ℤ) (pos : ℤ)

variable {Var V : Type}

/-! ## The analysis -/

/-- `storedBefore`, over the operations before a push, last first. -/
def storedBefore (slot : ℕ) : List (Op Var V) → Option V
  | [] => none
  | .store s v :: before => if s = slot then some v else storedBefore slot before
  | _ :: before => storedBefore slot before

/-- `declaredLowerBounds`, for a declare; a designate's are taken to be 1 (`[]`). -/
def lowerBounds (p : Pushed Var) : List ℤ :=
  if p.definition = .declare then lowers p.frame else []

/-- `analyseValueItem`. -/
def analyseValueItem (p : Pushed Var) : Option (Item Var V) :=
  if p.embox = some true || (p.embox.isSome && p.typeparams) then none
  else if p.definition = .other then none
  else if p.embox.isNone && !p.boxTyped then none
  else if !p.isTrivial then none
  else if p.frame.isEmpty then some (.boxed p.var)
  else if !p.shaped && !p.boxTyped then none
  else some (.array p.var (p.frame.map Dim.extent) (bif p.shaped then p.folded else [])
    (lowerBounds p))

/-- The pushes of `analyse`, each with the operations before it; `none`: out of scope. -/
def analyseOps : List (Op Var V) → List (Op Var V) → Option (List (Op Var V ⊕ Item Var V))
  | _, [] => some []
  | before, op :: ops =>
    match op with
    | .pushScalar slot isTrivial =>
      match storedBefore slot before with
      | some v => if isTrivial then (analyseOps (op :: before) ops).map (.inr (.scalar v) :: ·)
          else none
      | none => none
    | .pushValue p =>
      match analyseValueItem p with
      | some item => (analyseOps (op :: before) ops).map (.inr item :: ·)
      | none => none
    | .onState => none
    | .nested => none
    | op => (analyseOps (op :: before) ops).map (.inl op :: ·)

/-- `supportedConsumers`. -/
def supportedConsumer : Consumer V → Bool
  | .other => false
  | _ => true

/-- `analyse`. -/
def analyse (c : Ctor Var V) : Option (List (Op Var V ⊕ Item Var V)) :=
  match analyseOps [] c.ops with
  | none => none
  | some steps =>
    if steps.all (fun s => s.isLeft) then none
    else if c.tempOk && c.consumers.all supportedConsumer then some steps
    else none

/-! ## The rewriting -/

/-- `constPos` and `dynPos`: the next position is their sum. -/
structure Position where
  const : ℤ
  dyn : Option ℤ

/-- `positionPlus`. -/
def Position.value (p : Position) : ℤ := p.dyn.getD 0 + p.const

/-- The position behind an array item: its constant total, or its run-time total. -/
def Position.advance (p : Position) (extents : List ℕ) (folded : List Bool) : Position :=
  if folded.length = extents.length &&
    folded.all id then { p with const := p.const + (extents.map Int.ofNat).prod }
  else { p with dyn := some (p.dyn.getD 0 + (extents.map Int.ofNat).prod) }

/-- One operation of the block, with the position behind it. -/
def emitItem (pos : Position) : Op Var V ⊕ Item Var V → Emit Var V × Position
  | .inl op => (.keep op, pos)
  | .inr (.scalar v) => (.scalar v pos.value, { pos with const := pos.const + 1 })
  | .inr (.boxed var) => (.boxed var pos.value, { pos with const := pos.const + 1 })
  | .inr (.array var extents folded lbounds) =>
      (.nest var extents lbounds pos.value, pos.advance extents folded)

/-- `rewrite`, over the items in push order. -/
def emitItems : Position → List (Op Var V ⊕ Item Var V) → List (Emit Var V)
  | _, [] => []
  | pos, s :: steps => (emitItem pos s).1 :: emitItems (emitItem pos s).2 steps

/-- The pass on one constructor: what replaces the block, or `none` where it is left untouched. -/
def materialise (c : Ctor Var V) : Option (List (Emit Var V)) :=
  (analyse c).map (emitItems ⟨1, none⟩)

/-! ## Running the block -/

/-- The contents of the variables by index lists; a scalar has the empty one. -/
abbrev Memory (Var V : Type) := Var → List ℤ → V

/-- The index lists of the loop nest: the last dimension is the outermost loop, every loop runs from
1. -/
def nest : List ℕ → List (List ℤ)
  | [] => [[]]
  | e :: extents => (nest extents).flatMap fun ivs => (List.range e).map fun (i : ℕ) =>
      (i + 1 : ℤ) :: ivs

/-- `lin`: the terms `(iv_d - 1) * stride_d`. -/
def linear : ℤ → List ℕ → List ℤ → ℤ
  | stride, e :: extents, i :: ivs => (i - 1) * stride + linear (stride * e) extents ivs
  | _, _, _ => 0

/-- `srcIdx`: the lower bounds taken into account, where there are any. -/
def sourceIndex (lbounds ivs : List ℤ) : List ℤ :=
  if lbounds.isEmpty then ivs
    else List.zipWith (fun i lb => if lb = 1 then i else i + lb - 1) ivs lbounds

/-- The operations that are kept change the variables only by their effect. -/
def Op.after (m : Memory Var V) : Op Var V → Memory Var V
  | .effect f => f m
  | _ => m

/-- The stores into the local array, position and value, in the order they are made. -/
def stores (m : Memory Var V) : Emit Var V → List (ℤ × V)
  | .keep _ => []
  | .scalar v pos => [(pos, v)]
  | .boxed var pos => [(pos, m var [])]
  | .nest var extents lbounds pos =>
    (nest extents).map fun ivs => (pos + linear 1 extents ivs, m var (sourceIndex lbounds ivs))

def Emit.after (m : Memory Var V) : Emit Var V → Memory Var V
  | .keep op => op.after m
  | _ => m

/-- The stores of the emitted block. -/
def runEmitted : Memory Var V → List (Emit Var V) → List (ℤ × V)
  | _, [] => []
  | m, e :: es => stores m e ++ runEmitted (e.after m) es

/-- The local array behind a list of stores: the last store to a position counts. -/
def tempAfter (log : List (ℤ × V)) (pos : ℤ) : Option V :=
  (log.reverse.find? fun s => decide (s.1 = pos)).map (·.2)

/-! ## Inline stores -/

/-- The operations of a constructor that is filled inline: element stores, by the array they go to,
and others. -/
inductive InlineOp (Var V : Type) where
  | store (array : Var) (pos : ℤ) (v : Memory Var V → V)
  | effect (f : Memory Var V → Memory Var V)

/-- `rewriteInline`: the same stores, into the local array. -/
def rewriteInline [DecidableEq Var] (tmp localTemp : Var) (ops : List (InlineOp Var V)) :
    List (InlineOp Var V) :=
  ops.map fun
    | .store array pos v => .store (if array = tmp then localTemp else array) pos v
    | .effect f => .effect f

/-- The stores that go to an array. -/
def inlineStores [DecidableEq Var] (array : Var) :
    Memory Var V → List (InlineOp Var V) → List (ℤ × V)
  | _, [] => []
  | m, .store a pos v :: ops => (if a = array then [(pos, v m)] else []) ++ inlineStores array m ops
  | m, .effect f :: ops => inlineStores array (f m) ops

/-! ## Fortran's value -/

/-- The elements of an item in array element order. -/
def elements (m : Memory Var V) (p : Pushed Var) : List V :=
  (List.range (size p.frame)).map fun q => m p.var (indexAt p.frame q)

/-- What the runtime appends for one operation, with the contents of the scratch slots. -/
def pushed (m : Memory Var V) (slots : ℕ → Option V) : Op Var V → List V
  | .pushScalar slot _ => (slots slot).toList
  | .pushValue p => elements m p
  | _ => []

def Op.slotsAfter (slots : ℕ → Option V) : Op Var V → ℕ → Option V
  | .store slot v => fun s => if s = slot then some v else slots s
  | _ => slots

/-- **The constructor's value**: the concatenation of its items. -/
def concatenation : Memory Var V → (ℕ → Option V) → List (Op Var V) → List V
  | _, _, [] => []
  | m, slots, op :: ops => pushed m slots op ++ concatenation (op.after m) (op.slotsAfter slots) ops

/-- What a consumer of the value sees. -/
def Consumer.ofValue (value : List V) : Consumer V → Option (List V)
  | .assign => some value
  | .apply p => value[p]?.map fun v => [v]
  | .reduce f => some [f value]
  | .destroy => some []
  | .other => none

/-- What it sees of a local array of `n` elements. -/
def Consumer.ofTemp (n : ℕ) (temp : ℤ → Option V) : Consumer V → Option (List V)
  | .assign => (List.range n).mapM fun (p : ℕ) => temp (p + 1)
  | .apply p => (temp (p + 1)).map fun v => [v]
  | .reduce f => ((List.range n).mapM fun (p : ℕ) => temp (p + 1)).map fun value => [f value]
  | .destroy => some []
  | .other => none

/-- **The local array is Fortran's value**: every position from 1 is stored to exactly once,
position `p` holds element `p`, and each consumer sees what it saw of the value. -/
structure Builds (c : Ctor Var V) (value : List V) (log : List (ℤ × V)) : Prop where
  positions : log.map (·.1) = (List.range value.length).map fun (p : ℕ) => (p + 1 : ℤ)
  holds : ∀ p : ℕ, p < value.length → tempAfter log (p + 1) = value[p]?
  consumers : ∀ u ∈ c.consumers, u.ofTemp value.length (tempAfter log) = u.ofValue value

end ArrayConstructors

/-
# When the local array is Fortran's value

The stores of the emitted block are numbered from 1 without gap, whatever the items; what is stored
is what the items read.  A designate is read as if its subscripts started at 1.
-/

namespace ArrayConstructors

open ArrayOrder

variable {Var V : Type}

/-! ## Loop nests -/

/-- The frame with the same extents and every lower bound 1. -/
def ones (f : Frame) : Frame := f.map fun d => ⟨1, d.extent⟩

/-- Rows of `e` one after another. -/
theorem flatMap_rows {α : Type} (g : ℕ → α) (e s : ℕ) :
    ((List.range s).flatMap fun q => (List.range e).map fun i => g (i + e * q)) =
      (List.range (e * s)).map g := by
  induction s with
  | zero => simp
  | succ s ih =>
    rw [range_succ, flatMap_append, ih, Nat.mul_succ, range_add, map_append, map_map]
    simp only [flatMap_cons, flatMap_nil, append_nil]
    congr 1
    refine map_congr_left fun i _ => ?_
    show g (i + e * s) = g (e * s + i)
    rw [Nat.add_comm]

variable (f : Frame)

/-- **The loop nest runs in array element order.** -/
theorem nest_eq : nest (f.map Dim.extent) = (List.range (size f)).map (indexAt (ones f)) := by
  induction f with
  | nil => rfl
  | cons d f ih =>
    show ((nest (f.map Dim.extent)).flatMap fun ivs => (List.range d.extent).map fun (i : ℕ) => (i +
      1 : ℤ) :: ivs) = _
    rw [ih, flatMap_map]
    show _ = (List.range (d.extent * size f)).map (indexAt (ones (d :: f)))
    rw [← flatMap_rows]
    refine flatMap_congr fun q _ => map_congr_left fun i hi => ?_
    have hlt : i < d.extent := mem_range.mp hi
    show ((i : ℤ) + 1) :: indexAt (ones f) q =
      (1 + (((i + d.extent * q) % d.extent : ℕ) : ℤ)) ::
        indexAt (ones f) ((i + d.extent * q) / d.extent)
    rw [Nat.add_mul_mod_self_left, Nat.mod_eq_of_lt hlt, Nat.add_mul_div_left _ _ (by omega),
      Nat.div_eq_of_lt hlt,
      Nat.zero_add, add_comm]

/-- The linear offset of an index list is its place in that order. -/
theorem linear_eq (stride : ℤ) {q : ℕ} (hq : q < size f) :
    linear stride (f.map Dim.extent) (indexAt (ones f) q) = stride * q := by
  induction f generalizing stride q with
  | nil =>
    have : q = 0 := by simpa [size] using hq
    simp [linear, this]
  | cons d f ih =>
    have hrest := ih (stride * d.extent) (Nat.div_lt_of_lt_mul (show q < d.extent * size f from hq))
    show (1 + ((q % d.extent : ℕ) : ℤ) - 1) * stride + linear (stride * d.extent) (f.map Dim.extent)
      (indexAt (ones f) (q / d.extent)) = stride * q
    rw [hrest]
    have hdiv : ((q % d.extent : ℕ) : ℤ) + d.extent * (q / d.extent : ℕ) = q := by
      exact_mod_cast Nat.mod_add_div q d.extent
    calc (1 + ((q % d.extent : ℕ) : ℤ) - 1) * stride + stride * d.extent * (q / d.extent : ℕ)
        = stride * (((q % d.extent : ℕ) : ℤ) + d.extent * (q / d.extent : ℕ)) := by ring
      _ = stride * q := by rw [hdiv]

/-- With the lower bounds of the frame the source index is the one of the frame. -/
theorem sourceIndex_lowers (q : ℕ) : sourceIndex (lowers f) (indexAt (ones f) q) = indexAt f q := by
  have hzip : ∀ f : Frame, ∀ q, List.zipWith (fun (i lb : ℤ) => if lb = 1 then i else i + lb - 1)
    (indexAt (ones f) q)
      (lowers f) = indexAt f q := by
    intro f
    induction f with
    | nil => intro q; rfl
    | cons d f ih =>
      intro q
      show (if d.lower = 1 then 1 + ((q % d.extent : ℕ) : ℤ) else 1 +
        ((q % d.extent : ℕ) : ℤ) + d.lower - 1) ::
        List.zipWith _ (indexAt (ones f) (q / d.extent)) (lowers f) =
          (d.lower + ((q % d.extent : ℕ) : ℤ)) :: indexAt f (q / d.extent)
      rw [ih]
      congr 1
      split_ifs <;> omega
  cases f with
  | nil => rfl
  | cons d f => exact hzip (d :: f) q

theorem prod_extents : ((f.map Dim.extent).map Int.ofNat).prod = (size f : ℤ) := by
  induction f with
  | nil => rfl
  | cons d f ih =>
    show (d.extent : ℤ) * ((f.map Dim.extent).map Int.ofNat).prod = ((d.extent * size f : ℕ) : ℤ)
    rw [ih, Nat.cast_mul]

/-! ## Numbered stores -/

/-- Values stored at one position after another. -/
def numbered : ℤ → List V → List (ℤ × V)
  | _, [] => []
  | k, v :: vs => (k, v) :: numbered (k + 1) vs

theorem numbered_append (k : ℤ) (vs ws : List V) :
    numbered k (vs ++ ws) = numbered k vs ++ numbered (k + vs.length) ws := by
  induction vs generalizing k with
  | nil => simp [numbered]
  | cons v vs ih =>
    show (k, v) :: numbered (k + 1) (vs ++ ws) = (k, v) :: (numbered (k + 1) vs ++ _)
    rw [ih, length_cons, Nat.cast_succ, add_assoc k 1, add_comm (1 : ℤ)]

theorem numbered_map_range (k : ℤ) (n : ℕ) (g : ℕ → V) :
    numbered k ((List.range n).map g) = (List.range n).map fun (q : ℕ) => (k + q, g q) := by
  induction n with
  | zero => rfl
  | succ n ih => simp [range_succ, numbered_append, ih, numbered]

theorem numbered_positions (vs : List V) (k : ℤ) :
    (numbered k vs).map (·.1) = (List.range vs.length).map fun (p : ℕ) => (p + k : ℤ) := by
  induction vs generalizing k with
  | nil => rfl
  | cons v vs ih =>
    show k :: (numbered (k + 1) vs).map (·.1) = _
    rw [ih, length_cons, range_succ_eq_map, map_cons, map_map]
    congr 1
    · simp
    · refine map_congr_left fun p _ => ?_
      show (p + (k + 1) : ℤ) = ((p + 1 : ℕ) : ℤ) + k
      push_cast
      ring

theorem tempAfter_cons (k : ℤ) (v : V) (log : List (ℤ × V)) (pos : ℤ) :
    tempAfter ((k, v) :: log) pos = (tempAfter log pos).or (if k = pos then some v else none) := by
  unfold tempAfter
  rw [reverse_cons, List.find?_append]
  cases log.reverse.find? fun s => decide (s.1 = pos) with
  | none => by_cases h : k = pos <;> simp [h]
  | some s => simp

theorem tempAfter_below (vs : List V) {k pos : ℤ} (h : pos < k) :
    tempAfter (numbered k vs) pos = none := by
  induction vs generalizing k with
  | nil => rfl
  | cons v vs ih =>
    show tempAfter ((k, v) :: numbered (k + 1) vs) pos = none
    rw [tempAfter_cons, ih (by omega), if_neg (by omega), Option.or_none]

/-- Each position holds its value. -/
theorem tempAfter_numbered (vs : List V) (k : ℤ) (p : ℕ) :
    tempAfter (numbered k vs) (p + k) = vs[p]? := by
  induction vs generalizing k p with
  | nil => rfl
  | cons v vs ih =>
    show tempAfter ((k, v) :: numbered (k + 1) vs) (p + k) = _
    rw [tempAfter_cons]
    cases p with
    | zero => rw [tempAfter_below vs (by omega), if_pos (by omega)]; rfl
    | succ p =>
      have := ih (k + 1) p
      rw [show (p : ℤ) + (k + 1) = ((p + 1 : ℕ) : ℤ) + k by push_cast; ring] at this
      rw [this, if_neg (by omega), Option.or_none, List.getElem?_cons_succ]

/-! ## What the items read -/

/-- What is read of a pushed variable: a designate counts from 1. -/
def readBy (m : Memory Var V) (p : Pushed Var) : List V :=
  (List.range (size p.frame)).map fun q =>
    m p.var (if p.definition = .declare then indexAt p.frame q else indexAt (ones p.frame) q)

def read (m : Memory Var V) (slots : ℕ → Option V) : Op Var V → List V
  | .pushScalar slot _ => (slots slot).toList
  | .pushValue p => readBy m p
  | _ => []

/-- What is read over the block. -/
def readAll : Memory Var V → (ℕ → Option V) → List (Op Var V) → List V
  | _, _, [] => []
  | m, slots, op :: ops => read m slots op ++ readAll (op.after m) (op.slotsAfter slots) ops

variable {slots : ℕ → Option V} {steps : List (Op Var V ⊕ Item Var V)}

variable {before ops : List (Op Var V)}

theorem storedBefore_eq (h : ∀ s, storedBefore s before = slots s)
    (op : Op Var V) (s : ℕ) : storedBefore s (op :: before) = op.slotsAfter slots s := by
  cases op with
  | store slot v =>
    show (if slot = s then some v else storedBefore s before) = if s = slot then some v else slots s
    rw [h]
    by_cases hs : s = slot
    · simp [hs]
    · rw [if_neg hs, if_neg (Ne.symm hs)]
  | _ => exact h s

theorem value_advance (pos : Position) (f : Frame) (folded : List Bool) :
    (pos.advance (f.map Dim.extent) folded).value = pos.value + size f := by
  unfold Position.advance
  rw [prod_extents]
  split_ifs
  · show pos.dyn.getD 0 + (pos.const + size f) = pos.dyn.getD 0 + pos.const + size f
    ring
  · show pos.dyn.getD 0 + size f + pos.const = pos.dyn.getD 0 + pos.const + size f
    ring

/-- A pushed value: its stores, and the position behind them. -/
theorem stores_value {p : Pushed Var} {item : Item Var V} (h : analyseValueItem p = some item)
    (m : Memory Var V)
    (pos : Position) :
    stores m (emitItem pos (.inr item : Op Var V ⊕ Item Var V)).1 =
      numbered pos.value (readBy m p) ∧
      (emitItem pos (.inr item : Op Var V ⊕ Item Var V)).1.after m = m ∧
      (emitItem pos (.inr item : Op Var V ⊕ Item Var V)).2.value = pos.value +
        (readBy m p).length := by
  unfold analyseValueItem at h
  split_ifs at h with _ hother _ _ hrank
  · obtain rfl := Option.some.inj h
    have hf : p.frame = [] := isEmpty_iff.mp hrank
    have hread : readBy m p = [m p.var []] := by
      simp [readBy, hf, size, indexAt, ones]
    rw [hread]
    refine ⟨rfl, rfl, ?_⟩
    show pos.dyn.getD 0 + (pos.const + 1) = pos.dyn.getD 0 + pos.const + 1
    ring
  · obtain rfl := Option.some.inj h
    refine ⟨?_, rfl, ?_⟩
    · show (nest (p.frame.map Dim.extent)).map
        (fun ivs => (pos.value + linear 1 (p.frame.map Dim.extent) ivs,
        m p.var (sourceIndex (lowerBounds p) ivs))) = _
      rw [nest_eq, map_map, readBy, numbered_map_range]
      refine map_congr_left fun q hq => ?_
      have hlin := linear_eq p.frame 1 (mem_range.mp hq)
      simp only [Function.comp_apply, hlin, one_mul, Prod.mk.injEq, true_and, lowerBounds]
      split_ifs with hdecl
      · rw [sourceIndex_lowers]
      · rfl
    · show (pos.advance (p.frame.map Dim.extent) _).value = _
      rw [value_advance]
      simp [readBy]

/-- **The stores of the block**: what the items read, numbered from the position before. -/
theorem runEmitted_eq
    (h : analyseOps before ops = some steps) (hslots : ∀ s, storedBefore s before = slots s)
    (m : Memory Var V)
    (pos : Position) : runEmitted m (emitItems pos steps) =
      numbered pos.value (readAll m slots ops) := by
  induction ops generalizing before steps slots m pos with
  | nil =>
    obtain rfl := Option.some.inj h
    rfl
  | cons op ops ih =>
    have hslots' := storedBefore_eq hslots op
    have hkeep : ∀ rest, analyseOps (op :: before) ops = some rest → read m slots op = [] →
        runEmitted m (emitItems pos (.inl op :: rest)) =
          numbered pos.value (readAll m slots (op :: ops)) := by
      intro rest hrest hread
      show [] ++ runEmitted (op.after m) (emitItems pos rest) = _
      rw [nil_append, ih hrest hslots', readAll, hread, nil_append]
    unfold analyseOps at h
    cases op with
    | store slot v =>
      obtain ⟨rest, hrest, rfl⟩ := Option.map_eq_some_iff.mp h
      exact hkeep rest hrest rfl
    | effect f =>
      obtain ⟨rest, hrest, rfl⟩ := Option.map_eq_some_iff.mp h
      exact hkeep rest hrest rfl
    | onState => cases h
    | nested => cases h
    | pushScalar slot isTrivial =>
      cases hv : storedBefore slot before with
      | none => simp [hv] at h
      | some v =>
        simp only [hv] at h
        split_ifs at h
        obtain ⟨rest, hrest, rfl⟩ := Option.map_eq_some_iff.mp h
        have hslot : slots slot = some v := (hslots slot).symm.trans hv
        show (pos.value, v) :: runEmitted m (emitItems ⟨pos.const + 1, pos.dyn⟩ rest) = _
        rw [ih hrest hslots']
        show (pos.value, v) :: numbered (pos.dyn.getD 0 + (pos.const + 1)) _ =
          numbered pos.value ((slots slot).toList ++ _)
        rw [hslot, ← add_assoc]
        rfl
    | pushValue p =>
      cases hitem : (analyseValueItem p : Option (Item Var V)) with
      | none => simp [hitem] at h
      | some item =>
        simp only [hitem] at h
        obtain ⟨rest, hrest, rfl⟩ := Option.map_eq_some_iff.mp h
        obtain ⟨hstores, hafter, hpos⟩ := stores_value hitem m pos
        show stores m (emitItem pos (.inr item)).1 ++
          runEmitted ((emitItem pos (.inr item)).1.after m)
            (emitItems (emitItem pos (.inr item)).2 rest) = _
        rw [hstores, hafter, ih hrest hslots', hpos, ← numbered_append]
        rfl

/-- The stores of a whole block are numbered from 1. -/
theorem runEmitted_block
    (h : analyseOps [] ops = some steps) (m : Memory Var V) :
    runEmitted m (emitItems ⟨1, none⟩ steps) = numbered 1 (readAll m (fun _ => none) ops) := by
  have hslots : ∀ s, storedBefore s ([] : List (Op Var V)) = (fun _ => none : ℕ → Option V) s :=
    fun _ => rfl
  exact runEmitted_eq h hslots m ⟨1, none⟩

/-! ## The value -/

/-- Where a designate is pushed, its elements are what stands at the subscripts counted from 1. -/
def FromOne (m : Memory Var V) (p : Pushed Var) : Prop :=
  p.definition ≠ .declare → ∀ q < size p.frame, m p.var (indexAt (ones p.frame) q) =
    m p.var (indexAt p.frame q)

/-- Every pushed variable, as the variables are at its push. -/
def AllFromOne : Memory Var V → List (Op Var V) → Prop
  | _, [] => True
  | m, op :: ops => (∀ p, op = .pushValue p → FromOne m p) ∧ AllFromOne (op.after m) ops

variable (m : Memory Var V)

theorem readBy_eq_elements_iff (p : Pushed Var) : readBy m p = elements m p ↔ FromOne m p := by
  unfold readBy elements FromOne
  rw [map_inj_left]
  constructor
  · intro h hdef q hq
    have := h q (mem_range.mpr hq)
    rwa [if_neg hdef] at this
  · intro h q hq
    by_cases hdef : p.definition = .declare
    · rw [if_pos hdef]
    · rw [if_neg hdef]
      exact h hdef q (mem_range.mp hq)

theorem length_read (slots : ℕ → Option V) (op : Op Var V) :
    (read m slots op).length = (pushed m slots op).length := by
  cases op with
  | pushValue p => simp [read, pushed, readBy, elements]
  | _ => rfl

theorem read_eq_pushed_iff (slots : ℕ → Option V) (op : Op Var V) :
    read m slots op = pushed m slots op ↔ ∀ p, op = .pushValue p → FromOne m p := by
  cases op with
  | pushValue p =>
    show readBy m p = elements m p ↔ _
    rw [readBy_eq_elements_iff]
    exact ⟨fun h q hq => Op.pushValue.inj hq ▸ h, fun h => h p rfl⟩
  | _ => exact iff_of_true rfl (fun _ h => by cases h)

theorem length_readAll (slots : ℕ → Option V) (ops : List (Op Var V)) :
    (readAll m slots ops).length = (concatenation m slots ops).length := by
  induction ops generalizing m slots with
  | nil => rfl
  | cons op ops ih => rw [readAll, concatenation, length_append, length_append, length_read, ih]

/-- What is read is the concatenation just where every designate counts from 1. -/
theorem readAll_eq_iff (slots : ℕ → Option V) (ops : List (Op Var V)) :
    readAll m slots ops = concatenation m slots ops ↔ AllFromOne m ops := by
  induction ops generalizing m slots with
  | nil => exact iff_of_true rfl trivial
  | cons op ops ih =>
    rw [readAll, concatenation,
      AllFromOne, ← ih (op.after m) (op.slotsAfter slots), ← read_eq_pushed_iff m slots op]
    constructor
    · intro h
      exact append_inj h (length_read m slots op)
    · rintro ⟨h₁, h₂⟩
      rw [h₁, h₂]

theorem mapM_range_getElem? (value : List V) :
    ((List.range value.length).mapM fun p => value[p]?) = some value := by
  refine Fallible.mapM_eq_some_iff.mpr (forall₂_iff_get.mpr ⟨length_range, fun i _ hi => ?_⟩)
  simp

/-- A local array with the value shows each supported consumer what it saw. -/
theorem ofTemp_eq_ofValue {value : List V} {temp : ℤ → Option V}
    (h : ∀ p : ℕ, temp (p + 1) = value[p]?)
    (u : Consumer V) : u.ofTemp value.length temp = u.ofValue value := by
  have hall : ((List.range value.length).mapM fun (p : ℕ) => temp (p + 1)) = some value := by
    simp only [h, mapM_range_getElem?]
  cases u with
  | assign => exact hall
  | apply p => exact congrArg (Option.map fun v => [v]) (h p)
  | reduce f =>
    show Option.map _ ((List.range value.length).mapM fun (p : ℕ) => temp (p + 1)) = _
    rw [hall]
    rfl
  | destroy => rfl
  | other => rfl

/-- The value of a constructor: no scratch slot has been stored to before. -/
def Ctor.value (c : Ctor Var V) (m : Memory Var V) : List V := concatenation m (fun _ => none) c.ops

theorem analyseOps_of_materialise {c : Ctor Var V} {out : List (Emit Var V)}
    (h : materialise c = some out) :
    ∃ steps, analyseOps [] c.ops = some steps ∧ out = emitItems ⟨1, none⟩ steps := by
  obtain ⟨steps, hsteps, rfl⟩ := Option.map_eq_some_iff.mp h
  refine ⟨steps, ?_, rfl⟩
  unfold analyse at hsteps
  cases hops : analyseOps [] c.ops with
  | none => simp [hops] at hsteps
  | some steps' =>
    simp only [hops] at hsteps
    split_ifs at hsteps
    exact hsteps

/-- **When the local array is Fortran's value**: a constructor that is rewritten is built right just
where every designate pushed holds, counted from 1, its elements. -/
theorem materialise_builds_iff {c : Ctor Var V} {out : List (Emit Var V)}
    (h : materialise c = some out)
    (m : Memory Var V) : Builds c (c.value m) (runEmitted m out) ↔ AllFromOne m c.ops := by
  obtain ⟨steps, hsteps, rfl⟩ := analyseOps_of_materialise h
  have hrun := runEmitted_block hsteps m
  have hlen := length_readAll m (fun _ => none) c.ops
  rw [← readAll_eq_iff m fun _ => none, hrun]
  constructor
  · intro hb
    refine List.ext_getElem? fun p => ?_
    by_cases hp : p < (c.value m).length
    · rw [← tempAfter_numbered _ 1 p, hb.holds p hp]
      rfl
    · have hp' : (concatenation m (fun _ => none) c.ops).length ≤ p := not_lt.mp hp
      rw [List.getElem?_eq_none hp', List.getElem?_eq_none (hlen ▸ hp')]
  · intro heq
    have hholds : ∀ p : ℕ, tempAfter (numbered 1 (readAll m (fun _ => none) c.ops)) (p + 1) =
        (c.value m)[p]? := by
      intro p
      rw [tempAfter_numbered, heq]
      rfl
    refine ⟨?_, fun p _ => hholds p, fun u _ => ofTemp_eq_ofValue hholds u⟩
    rw [numbered_positions, heq]
    rfl

/-- A constructor that is filled inline keeps its stores: the local array is filled as the temporary
was. -/
theorem inlineStores_rewriteInline [DecidableEq Var] {tmp localTemp : Var}
    {ops : List (InlineOp Var V)}
    (hfresh : ∀ array pos v, InlineOp.store array pos v ∈ ops → array ≠ localTemp)
    (m : Memory Var V) :
    inlineStores localTemp m (rewriteInline tmp localTemp ops) = inlineStores tmp m ops := by
  induction ops generalizing m with
  | nil => rfl
  | cons op ops ih =>
    have ih' := ih fun array pos v h => hfresh array pos v (mem_cons_of_mem op h)
    cases op with
    | effect f => exact ih' (f m)
    | store array pos v =>
      show (if (if array = tmp then localTemp else array) = localTemp then [(pos, v m)] else []) ++
        inlineStores localTemp m (rewriteInline tmp localTemp ops) = _
      rw [ih', inlineStores]
      by_cases h : array = tmp
      · simp [h]
      · rw [if_neg h, if_neg (hfresh array pos v mem_cons_self), if_neg h]

/-! ## A component that starts at 0 -/

/-- `w = [x%v, 7]` with `v(0:3)`: a component designate with its own bounds, pushed as the box it
is. -/
def componentItem : Ctor Unit ℤ where
  ops := [.store 0 7,
    .pushValue ⟨(), [⟨0, 4⟩], .designate, none, false, true, true, true, [true]⟩,
    .pushScalar 0 true]
  tempOk := true
  consumers := [.assign]

/-- Element `i` of the component is `10 * i`. -/
def componentMemory : Memory Unit ℤ
  | (), [i] => 10 * i
  | (), _ => 0

/-- What the pass emits: the loop reads subscripts 1 to 4. -/
def componentLoop : List (Emit Unit ℤ) := [.keep (.store 0 7), .nest () [4] [] 1, .scalar 7 5]

theorem materialise_builds_iff_component :
    Builds componentItem (componentItem.value componentMemory)
      (runEmitted componentMemory componentLoop) ↔
      AllFromOne componentMemory componentItem.ops :=
  materialise_builds_iff rfl componentMemory

/-- Position 1 holds element 1, not element 0. -/
theorem not_builds_component :
    materialise componentItem = some componentLoop ∧
      ¬Builds componentItem (componentItem.value componentMemory)
        (runEmitted componentMemory componentLoop) := by
  refine ⟨rfl, fun h => ?_⟩
  have := h.holds 0 (by decide)
  revert this
  decide

end ArrayConstructors
