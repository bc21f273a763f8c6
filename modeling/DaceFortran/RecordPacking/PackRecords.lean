/-
# Packing the members of an array of records

What the code emitted by `bindings/loop_copy.py` for an array of records computes:
the common bounds of the members, the buffer they are packed into (on the host or
on the device), and the members the buffer is unpacked to.  Buffer subscripts are
lists in the order of the buffer; a record or a member has its subscripts by
dimension.
-/
import Mathlib.Data.Fin.Tuple.Basic
import Mathlib.Data.Fintype.Pi
import Mathlib.Data.List.OfFn
import Mathlib.Algebra.BigOperators.Group.List.Basic
import Mathlib.Tactic.Ring

namespace RecordPacking

/-! ## Arrays of records -/

/-- The bounds a dimension was allocated with. -/
structure Bounds where
  lower : ℤ
  upper : ℤ
  deriving DecidableEq

/-- `lbound`: 1 for an empty dimension. -/
def Bounds.lbound (b : Bounds) : ℤ := if b.lower ≤ b.upper then b.lower else 1

/-- `ubound`: 0 for an empty dimension. -/
def Bounds.ubound (b : Bounds) : ℤ := if b.lower ≤ b.upper then b.upper else 0

/-- `size` of one dimension. -/
def Bounds.size (b : Bounds) : ℕ := (b.ubound - b.lbound + 1).toNat

/-- A present member of rank `n`: its bounds, and the value of each element. -/
structure Member (n : ℕ) (α : Type) where
  bounds : Fin n → Bounds
  value : (Fin n → ℤ) → α

variable {n k : ℕ} {α : Type}

/-- `size(member) > 0`. -/
def Member.nonempty (m : Member n α) : Bool := decide (∀ d, 0 < (m.bounds d).size)

/-- Subscripts of an element of a member. -/
def Member.InBounds (m : Member n α) (s : Fin n → ℤ) : Prop :=
  ∀ d, (m.bounds d).lbound ≤ s d ∧ s d ≤ (m.bounds d).ubound

/-- An array of records of rank `k` whose members have rank `n`: its extents, and the member of
each record, when it is allocated or associated. -/
structure Records (k n : ℕ) (α : Type) where
  extents : Fin k → ℕ
  member : (Fin k → ℤ) → Option (Member n α)

/-! ## Loop nests -/

/-- The subscripts `_over_elements` goes through, from 1 to the extents, the last dimension
outermost. -/
def overElements : {k : ℕ} → (Fin k → ℕ) → List (Fin k → ℤ)
  | 0, _ => [Fin.elim0]
  | _ + 1, extents =>
    (overElements (Fin.tail extents)).flatMap fun rest =>
      (List.range (extents 0)).map fun (i : ℕ) => Fin.cons ((i : ℤ) + 1) rest

/-- The present members, in the order of the loops. -/
def Records.presents (r : Records k n α) : List ((Fin k → ℤ) × Member n α) :=
  (overElements r.extents).filterMap fun e => (r.member e).map (e, ·)

/-! ## The common bounds -/

/-- The first loop of `_aos_alloc_bounds`: the lower bounds, and whether they were taken. -/
def takeLowers (l : List ((Fin k → ℤ) × Member n α)) (s : (Fin n → ℤ) × Bool) :
    (Fin n → ℤ) × Bool :=
  l.foldl (fun s p =>
    if p.2.nonempty then
      let lbs := if s.2 then s.1 else fun d => (p.2.bounds d).lbound
      (fun d => min (lbs d) (p.2.bounds d).lbound, true)
    else s) s

/-- The second loop: the largest reach above the common lower bounds. -/
def takeCaps (lbs : Fin n → ℤ) (l : List ((Fin k → ℤ) × Member n α)) (caps : Fin n → ℤ) :
    Fin n → ℤ :=
  l.foldl (fun caps p =>
    if p.2.nonempty then fun d => max (caps d) ((p.2.bounds d).ubound - lbs d + 1) else caps) caps

/-- The lower-bound symbols of the buffer. -/
def Records.lbs (r : Records k n α) : Fin n → ℤ := (takeLowers r.presents (fun _ => 1, false)).1

/-- The cap symbols: at least 1. -/
def Records.caps (r : Records k n α) : Fin n → ℤ := fun d =>
  if takeCaps r.lbs r.presents (fun _ => 0) d =
    0 then 1 else takeCaps r.lbs r.presents (fun _ => 0) d

/-! ## Subscripts of the buffer -/

/-- `_buffer_order`: the record's subscripts before the member's, or after them. -/
def bufferOrder (membersFirst : Bool) (records : Fin k → ℤ) (members : Fin n → ℤ) : List ℤ :=
  if membersFirst then List.ofFn members ++ List.ofFn records
  else List.ofFn records ++ List.ofFn members

/-- The shape the buffer is allocated with. -/
def Records.shape (membersFirst : Bool) (r : Records k n α) : List ℤ :=
  bufferOrder membersFirst (fun d => (r.extents d : ℤ)) r.caps

/-- Where `_own_range` starts in a dimension. -/
def ownFirst (lb : ℤ) (b : Bounds) : ℤ := b.lbound - lb + 1

/-- Where it ends. -/
def ownLast (lb : ℤ) (b : Bounds) : ℤ := b.ubound - lb + 1

/-- How many subscripts it has. -/
def ownExtent (lb : ℤ) (b : Bounds) : ℕ := (ownLast lb b - ownFirst lb b + 1).toNat

/-- The offset of a member in the buffer: its lower bound minus the buffer's. -/
def packOffset (lb : ℤ) (b : Bounds) : ℤ := b.lbound - lb

/-! ## Stores -/

/-- Stores into an array, one after the other. -/
def store {ι : Type} [DecidableEq ι] (cell : ι → α) (l : List (ι × α)) : ι → α :=
  l.foldl (fun cell p => Function.update cell p.1 p.2) cell

/-- The elements of one member that the host copies: the `t`-th of its range in the buffer, and the
`t`-th of the member. -/
def hostPairs (lbs : Fin n → ℤ) (m : Member n α) : List ((Fin n → ℤ) × (Fin n → ℤ)) :=
  (overElements fun d => ownExtent (lbs d) (m.bounds d)).map fun t =>
    (fun d => ownFirst (lbs d) (m.bounds d) + (t d - 1), fun d => (m.bounds d).lbound + (t d - 1))

/-- Those of the device loop: `aos_pack_subscripts` inside `_device_pack_loop`. -/
def devicePairs (lbs : Fin n → ℤ) (m : Member n α) : List ((Fin n → ℤ) × (Fin n → ℤ)) :=
  (overElements fun d => (m.bounds d).size).map fun t =>
    (fun d => packOffset (lbs d) (m.bounds d) + t d,
      fun d => lbs d + packOffset (lbs d) (m.bounds d) + t d - 1)

/-- How a copy loop pairs the buffer's subscripts with the member's. -/
abbrev Pairing (n : ℕ) (α : Type) := (Fin n → ℤ) → Member n α → List ((Fin n → ℤ) × (Fin n → ℤ))

/-- The stores into the buffer, record by record. -/
def packStores (pairs : Pairing n α) (membersFirst : Bool) (r : Records k n α) :
    List (List ℤ × α) :=
  r.presents.flatMap fun p =>
    (pairs r.lbs p.2).map fun q => (bufferOrder membersFirst p.1 q.1, p.2.value q.2)

/-! ## Pack-in and pack-out -/

/-- `render_aos_alloc_pack_in` on the host: the buffer is zero before the members are packed. -/
def packIn (membersFirst : Bool) (zero : α) (r : Records k n α) : List ℤ → α :=
  store (fun _ => zero) (packStores hostPairs membersFirst r)

/-- One member of `render_aos_alloc_pack_out`. -/
def unpackMember (pairs : Pairing n α) (membersFirst : Bool) (lbs : Fin n → ℤ) (cell : List ℤ → α)
    (e : Fin k → ℤ) (m : Member n α) : Member n α :=
  { m with
    value := store m.value
      ((pairs lbs m).map fun q => (q.2, cell (bufferOrder membersFirst e q.1))) }

/-- `render_aos_alloc_pack_out`: the members of the records its loops go through. -/
def packOut (pairs : Pairing n α) (membersFirst : Bool) (cell : List ℤ → α) (r : Records k n α) :
    Records k n α :=
  { r with
    member := fun e =>
      if e ∈ overElements r.extents then
        (r.member e).map (unpackMember pairs membersFirst r.lbs cell e)
      else r.member e }

/-! ## The device image -/

/-- `_kept_layout`: the extents, the caps and lower bounds, and the presence and bounds of each
member. -/
def Records.layout (r : Records k n α) : List ℤ :=
  List.ofFn (fun d => (r.extents d : ℤ)) ++ List.ofFn r.caps ++ List.ofFn r.lbs ++
    (overElements r.extents).flatMap fun e =>
      match r.member e with
      | none => List.replicate (1 + 2 * n) 0
      | some m => 1 :: (List.ofFn fun d => [(m.bounds d).lbound, (m.bounds d).ubound]).flatten

/-- An image that is kept from one call to the next: what it was allocated with, what the device
holds, and the layout it was set up for. -/
structure DeviceImage (k n : ℕ) (α : Type) where
  extents : Fin k → ℕ
  caps : Fin n → ℤ
  cell : List ℤ → α
  layout : List ℤ

/-- `<flat>_padded`: some member does not fill its part of the buffer. -/
def Records.padded (r : Records k n α) : Bool :=
  r.presents.any fun p => decide (∃ d, ((p.2.bounds d).size : ℤ) < r.caps d ∨
    (p.2.bounds d).lbound ≠ r.lbs d)

/-- A new image: memory as the device hands it out, zeroed where there is padding. -/
def newCell (zero : α) (memory : List ℤ → α) (r : Records k n α) : List ℤ → α :=
  if r.padded then fun _ => zero else memory

/-- The image before it is packed: it is set up anew when the layout changed. -/
def setUp (zero : α) (memory : List ℤ → α) (kept : Option (DeviceImage k n α))
    (r : Records k n α) : DeviceImage k n α :=
  match kept with
  | some image =>
    if image.layout = r.layout then image
    else ⟨r.extents, r.caps, newCell zero memory r, r.layout⟩
  | none => ⟨r.extents, r.caps, newCell zero memory r, r.layout⟩

/-- `render_aos_alloc_pack_in` on the device. -/
def packInDevice (membersFirst : Bool) (zero : α) (memory : List ℤ → α)
    (kept : Option (DeviceImage k n α)) (r : Records k n α) : DeviceImage k n α :=
  let image := setUp zero memory kept r
  { image with cell := store image.cell (packStores devicePairs membersFirst r) }

/-- The positions of a buffer. -/
def positions (membersFirst : Bool) (extents : Fin k → ℕ) (caps : Fin n → ℤ) : List (List ℤ) :=
  (overElements extents).flatMap fun e =>
    (overElements fun d => (caps d).toNat).map (bufferOrder membersFirst e)

/-- The positions that the copies store to. -/
def Records.live (membersFirst : Bool) (r : Records k n α) : List (List ℤ) :=
  (packStores hostPairs membersFirst r).map Prod.fst

/-- The images that calls leave: a kernel writes elements of present members, nothing else. -/
inductive Kept (membersFirst : Bool) (zero : α) : Option (DeviceImage k n α) → Prop
  | none : Kept membersFirst zero none
  | call {kept : Option (DeviceImage k n α)} (h : Kept membersFirst zero kept)
      (memory : List ℤ → α) (r : Records k n α) (cell : List ℤ → α)
      (hcell : ∀ p, p ∉ r.live membersFirst →
        cell p = (packInDevice membersFirst zero memory kept r).cell p) :
      Kept membersFirst zero
        (some { packInDevice membersFirst zero memory kept r with cell := cell })

/-! ## Strides -/

/-- `members_first_order`. -/
def membersFirstOrder (lead rank : ℕ) : List ℕ := List.range' lead (rank - lead) ++ List.range lead

/-- The loop of `members_first_strides`: the strides so far, and the next one. -/
def stridesLoop (shape : List ℤ) (order : List ℕ) (s : (ℕ → ℤ) × ℤ) : (ℕ → ℤ) × ℤ :=
  order.foldl (fun s d => (Function.update s.1 d s.2, s.2 * shape.getD d 0)) s

/-- `members_first_strides`. -/
def membersFirstStrides (shape : List ℤ) (lead : ℕ) : ℕ → ℤ :=
  (stridesLoop shape (membersFirstOrder lead shape.length) (fun _ => 0, 1)).1

/-- The address, in elements, of subscripts from 1 in an array with these strides. -/
def address (strides : ℕ → ℤ) (subscripts : List ℤ) : ℤ :=
  ((List.range subscripts.length).map fun d => strides d * (subscripts.getD d 0 - 1)).sum

/-- The address of an element of a Fortran array of a shape: column by column. -/
def columnMajor : List ℤ → List ℤ → ℤ
  | extent :: shape, s :: subscripts => (s - 1) + extent * columnMajor shape subscripts
  | _, _ => 0

/-! ## What packing should do -/

/-- The buffer's subscript for a member subscript. -/
def bufferSubscript (lbs s : Fin n → ℤ) : Fin n → ℤ := fun d => s d - lbs d + 1

/-- Pack-in and pack-out on the host are inverse and aligned. -/
structure AlignedOnHost (zero : α) (r : Records k n α) : Prop where
  /-- The lower bounds are the smallest ones of the members with elements. -/
  smallest : ∀ e m, (e, m) ∈ r.presents → m.nonempty = true → ∀ d,
    r.lbs d ≤ (m.bounds d).lbound ∧ ∃ e' m', (e', m') ∈ r.presents ∧ m'.nonempty = true ∧
      (m'.bounds d).lbound = r.lbs d
  /-- There is room for every live range. -/
  room : ∀ e m, (e, m) ∈ r.presents → (∀ d, 1 ≤ e d ∧ e d ≤ r.extents d) ∧
    ∀ s, m.InBounds s → ∀ d, 1 ≤ bufferSubscript r.lbs s d ∧ bufferSubscript r.lbs s d ≤ r.caps d
  /-- Distinct elements have distinct positions. -/
  distinct : ∀ (membersFirst : Bool) (e e' : Fin k → ℤ) (s s' : Fin n → ℤ),
    bufferOrder membersFirst e (bufferSubscript r.lbs s) =
      bufferOrder membersFirst e' (bufferSubscript r.lbs s') → e = e' ∧ s = s'
  /-- A member's value lands at its position. -/
  lands : ∀ (membersFirst : Bool) e m, (e, m) ∈ r.presents → ∀ s, m.InBounds s →
    packIn membersFirst zero r (bufferOrder membersFirst e (bufferSubscript r.lbs s)) = m.value s
  /-- What a kernel writes there is sent back to the same element, and nothing else changes. -/
  returns : ∀ (membersFirst : Bool) (cell : List ℤ → α) e m, (e, m) ∈ r.presents →
    ∃ m', (packOut hostPairs membersFirst cell r).member e = some m' ∧ m'.bounds = m.bounds ∧
      (∀ s, m.InBounds s →
        m'.value s = cell (bufferOrder membersFirst e (bufferSubscript r.lbs s))) ∧
      ∀ s, ¬m.InBounds s → m'.value s = m.value s
  /-- An absent member is not touched. -/
  absent : ∀ (membersFirst : Bool) (cell : List ℤ → α) e, r.member e = none →
    (packOut hostPairs membersFirst cell r).member e = none
  /-- Without a kernel between them nothing changes. -/
  inverse : ∀ membersFirst, packOut hostPairs membersFirst (packIn membersFirst zero r) r = r
  /-- The two layouts store the same values, at the addresses that the strides give. -/
  layouts : ∀ (e : Fin k → ℤ) (p : Fin n → ℤ),
    packIn true zero r (bufferOrder true e p) = packIn false zero r (bufferOrder false e p) ∧
      address (membersFirstStrides (r.shape false) k) (bufferOrder false e p) =
        columnMajor (r.shape true) (bufferOrder true e p)

/-- Pack-in and pack-out are inverse and aligned, and the device copies do what the host copies
do. -/
structure Aligned (zero : α) (r : Records k n α) : Prop extends AlignedOnHost zero r where
  /-- The device copies store what the host copies store, in the whole of the buffer, whatever
  memory the device hands out and whatever image the calls before have left. -/
  device : ∀ (membersFirst : Bool) (memory : List ℤ → α) (kept : Option (DeviceImage k n α)),
    Kept membersFirst zero kept →
      (packInDevice membersFirst zero memory kept r).extents = r.extents ∧
      (packInDevice membersFirst zero memory kept r).caps = r.caps ∧
      (∀ p ∈ positions membersFirst r.extents r.caps,
        (packInDevice membersFirst zero memory kept r).cell p = packIn membersFirst zero r p) ∧
      ∀ cell, packOut devicePairs membersFirst cell r = packOut hostPairs membersFirst cell r

/-- Every record has its member. -/
def Records.AllPresent (r : Records k n α) : Prop :=
  ∀ e ∈ overElements r.extents, (r.member e).isSome

/-- Some present member is empty in a dimension, or two differ in a bound. -/
def Records.Uneven (r : Records k n α) : Prop :=
  ∃ p ∈ r.presents, ∃ q ∈ r.presents, ∃ d, (p.2.bounds d).size = 0 ∨
    (p.2.bounds d).lbound ≠ (q.2.bounds d).lbound ∨ (p.2.bounds d).ubound ≠ (q.2.bounds d).ubound

instance (r : Records k n α) : Decidable r.AllPresent :=
  inferInstanceAs (Decidable (∀ e ∈ overElements r.extents, (r.member e).isSome))

instance (r : Records k n α) : Decidable r.Uneven :=
  inferInstanceAs (Decidable (∃ p ∈ r.presents, ∃ q ∈ r.presents, ∃ d, (p.2.bounds d).size = 0 ∨
    (p.2.bounds d).lbound ≠ (q.2.bounds d).lbound ∨
    (p.2.bounds d).ubound ≠ (q.2.bounds d).ubound))

end RecordPacking
