/-
# Array element order

Index lists of a frame of dimensions, each with a lower bound and an extent, and their
positions in array element order: the first dimension runs fastest.  One frame `Fits`
another if index lists keep their position when they are read in the other frame.
-/
import Mathlib.Data.List.Forall2
import Mathlib.Algebra.Order.Ring.Nat

namespace ArrayOrder

/-! ## Frames -/

/-- One dimension: the lowest index and the number of indices. -/
structure Dim where
  lower : ℤ
  extent : ℕ
  deriving DecidableEq

abbrev Frame := List Dim

def size : Frame → ℕ
  | [] => 1
  | d :: f => d.extent * size f

/-- The index list has an index of each dimension. -/
def Within : Frame → List ℤ → Prop
  | [], [] => True
  | d :: f, i :: is => (d.lower ≤ i ∧ i < d.lower + d.extent) ∧ Within f is
  | _, _ => False

/-- The number of elements before the one at the index list. -/
def position : Frame → List ℤ → ℕ
  | d :: f, i :: is => (i - d.lower).toNat + d.extent * position f is
  | _, _ => 0

/-- The index list at a position. -/
def indexAt : Frame → ℕ → List ℤ
  | [], _ => []
  | d :: f, q => (d.lower + (q % d.extent : ℕ)) :: indexAt f (q / d.extent)

example : (List.range 4).map (indexAt [⟨1, 2⟩, ⟨0, 2⟩]) = [[1, 0], [2, 0], [1, 1], [2, 1]] := by
  decide

variable {f g : Frame} {is : List ℤ}

theorem Within.length (h : Within f is) : is.length = f.length := by
  induction f generalizing is with
  | nil =>
    cases is with
    | nil => rfl
    | cons i is => exact h.elim
  | cons d f ih =>
    cases is with
    | nil => exact h.elim
    | cons i is => exact congrArg (· + 1) (ih h.2)

theorem size_pos_cons {d : Dim} (h : 0 < size (d :: f)) : 0 < d.extent ∧ 0 < size f :=
  ⟨Nat.pos_of_mul_pos_right h, Nat.pos_of_mul_pos_left h⟩

theorem indexAt_length (f : Frame) (q : ℕ) : (indexAt f q).length = f.length := by
  induction f generalizing q with
  | nil => rfl
  | cons d f ih => exact congrArg (· + 1) (ih _)

/-- Every position below the size has its index list. -/
theorem indexAt_spec (f : Frame) (q : ℕ) (h : q < size f) :
    Within f (indexAt f q) ∧ position f (indexAt f q) = q := by
  induction f generalizing q with
  | nil =>
    have hq : q = 0 := by
      simpa [size] using h
    exact ⟨trivial, hq.symm⟩
  | cons d f ih =>
    have hpos : 0 < d.extent := (size_pos_cons (Nat.zero_lt_of_lt h)).1
    have hlt : q % d.extent < d.extent := Nat.mod_lt q hpos
    obtain ⟨hw, hp⟩ := ih (q / d.extent) (Nat.div_lt_of_lt_mul h)
    refine ⟨⟨⟨by omega, by omega⟩, hw⟩, ?_⟩
    show (d.lower + (q % d.extent : ℕ) - d.lower).toNat + d.extent *
      position f (indexAt f (q / d.extent)) = q
    rw [hp, show (d.lower + ((q % d.extent : ℕ) : ℤ) - d.lower).toNat = q % d.extent from by omega]
    exact Nat.mod_add_div q d.extent

/-- An index list of the frame is the one at its position, and the position is below the size. -/
theorem indexAt_position (f : Frame) (is : List ℤ) (h : Within f is) :
    indexAt f (position f is) = is ∧ position f is < size f := by
  induction f generalizing is with
  | nil =>
    cases is with
    | nil => exact ⟨rfl, Nat.one_pos⟩
    | cons i is => exact h.elim
  | cons d f ih =>
    cases is with
    | nil => exact h.elim
    | cons i is =>
      obtain ⟨⟨hlo, hhi⟩, hw⟩ := h
      obtain ⟨hi, hp⟩ := ih is hw
      have hx : (i - d.lower).toNat < d.extent := by omega
      have hmod : ((i - d.lower).toNat + d.extent * position f is) % d.extent =
          (i - d.lower).toNat := by
        rw [Nat.add_mul_mod_self_left, Nat.mod_eq_of_lt hx]
      have hdiv : ((i - d.lower).toNat + d.extent * position f is) / d.extent = position f is := by
        rw [Nat.add_mul_div_left _ _ (by omega), Nat.div_eq_of_lt hx, Nat.zero_add]
      constructor
      · show (d.lower + (((i - d.lower).toNat + d.extent * position f is) % d.extent : ℕ)) ::
          indexAt f (((i - d.lower).toNat + d.extent * position f is) / d.extent) = i :: is
        rw [hmod, hdiv, hi, show d.lower + ((i - d.lower).toNat : ℤ) = i from by omega]
      · show (i - d.lower).toNat + d.extent * position f is < d.extent * size f
        calc (i - d.lower).toNat + d.extent * position f is
            < d.extent + d.extent * position f is := Nat.add_lt_add_right hx _
          _ = d.extent * (position f is + 1) := by rw [Nat.mul_add, Nat.mul_one, Nat.add_comm]
          _ ≤ d.extent * size f := Nat.mul_le_mul_left _ hp

/-- The lowest index of each dimension. -/
def lowers (f : Frame) : List ℤ := f.map Dim.lower

theorem lowers_spec (f : Frame) (h : 0 < size f) :
    Within f (lowers f) ∧ position f (lowers f) = 0 := by
  induction f with
  | nil => exact ⟨trivial, rfl⟩
  | cons d f ih =>
    obtain ⟨hd, hf⟩ := size_pos_cons h
    obtain ⟨hw, hp⟩ := ih hf
    refine ⟨⟨⟨le_refl _, by omega⟩, hw⟩, ?_⟩
    show (d.lower - d.lower).toNat + d.extent * position f (lowers f) = 0
    rw [hp]
    simp

/-- Position zero has the lowest indices. -/
theorem eq_lowers (f : Frame) (is : List ℤ) (h : Within f is) (hp : position f is = 0) :
    is = lowers f := by
  obtain ⟨hi, hlt⟩ := indexAt_position f is h
  obtain ⟨hw, h0⟩ := lowers_spec f (Nat.zero_lt_of_lt hlt)
  rw [← hi, hp, ← h0]
  exact (indexAt_position f _ hw).1

/-! ## Reading index lists in another frame -/

/-- The frames have the same number of dimensions and the same lower bounds. -/
def SameLower (f g : Frame) : Prop := lowers f = lowers g

/-- From the first dimension on the lower bounds agree, and so do the extents up to a dimension
after which the shorter side has a single element. -/
def Fits : Frame → Frame → Prop
  | [], [] => True
  | d :: f, s :: g =>
    d.lower = s.lower ∧
      (d.extent = s.extent ∧ Fits f g ∨
        d.extent < s.extent ∧ size f = 1 ∧ SameLower f g ∨
        s.extent < d.extent ∧ size g = 1 ∧ SameLower f g)
  | _, _ => False

/-- Index lists keep their position as far as the other frame has elements. -/
def KeepsPositions (f g : Frame) : Prop :=
  ∀ is, Within f is → position f is < size g → Within g is ∧ position g is = position f is

theorem KeepsPositions.sameLower (h : KeepsPositions f g) (hf : 0 < size f)
    (hg : 0 < size g) : SameLower f g := by
  obtain ⟨hw, hp⟩ := lowers_spec f hf
  obtain ⟨hw', hp'⟩ := h (lowers f) hw (by omega)
  exact eq_lowers g (lowers f) hw' (by omega)

/-- A frame with one element has its lowest indices only. -/
theorem eq_lowers_of_size_one (hf : size f = 1) (h : Within f is) :
    is = lowers f := by
  apply eq_lowers f is h
  have := (indexAt_position f is h).2
  omega

theorem keepsPositions_of_fits (hg : 0 < size g) (h : Fits f g) :
    KeepsPositions f g := by
  induction f generalizing g with
  | nil =>
    cases g with
    | nil => exact fun is hw _ => ⟨hw, rfl⟩
    | cons s g => exact h.elim
  | cons d f ih =>
    cases g with
    | nil => exact h.elim
    | cons s g =>
      obtain ⟨hs, hg'⟩ := size_pos_cons hg
      obtain ⟨hlow, hcase⟩ := h
      intro is hw hp
      cases is with
      | nil => exact hw.elim
      | cons i is =>
        obtain ⟨⟨hlo, hhi⟩, hw⟩ := hw
        change (i - d.lower).toNat + d.extent * position f is < s.extent * size g at hp
        show ((s.lower ≤ i ∧ i < s.lower + s.extent) ∧ Within g is) ∧
          (i - s.lower).toNat + s.extent * position g is = (i - d.lower).toNat +
            d.extent * position f is
        rw [← hlow]
        rcases hcase with ⟨he, hfit⟩ | ⟨hlt, hone, hsame⟩ | ⟨hlt, hone, hsame⟩
        · rw [← he] at hp ⊢
          have hrest : position f is < size g := by
            apply Nat.lt_of_mul_lt_mul_left (a := d.extent)
            omega
          obtain ⟨hw', hp'⟩ := ih hg' hfit is hw hrest
          exact ⟨⟨⟨hlo, hhi⟩, hw'⟩, by rw [hp']⟩
        · have his := eq_lowers_of_size_one hone hw
          obtain ⟨hw', hp'⟩ := lowers_spec g hg'
          have hpos : position f is = 0 := by
            rw [his]
            exact (lowers_spec f (by omega)).2
          rw [hpos, his, hsame, hp']
          exact ⟨⟨⟨hlo, by omega⟩, hw'⟩, by simp⟩
        · have hpos : position f is = 0 := by
            rw [hone, Nat.mul_one] at hp
            by_contra hne
            have : d.extent * 1 ≤ d.extent * position f is := Nat.mul_le_mul_left _ (by omega)
            omega
          have his := eq_lowers f is hw hpos
          obtain ⟨hw', hp'⟩ := lowers_spec g hg'
          rw [hpos, hone] at hp
          rw [hpos, his, hsame, hp']
          exact ⟨⟨⟨hlo, by omega⟩, hw'⟩, by simp⟩

theorem fits_of_keepsPositions (hf : 0 < size f) (hg : 0 < size g)
    (h : KeepsPositions f g) : Fits f g := by
  induction f generalizing g with
  | nil =>
    cases g with
    | nil => trivial
    | cons s g => exact (h [] trivial hg).1.elim
  | cons d f ih =>
    cases g with
    | nil =>
      obtain ⟨hw, hp⟩ := lowers_spec _ hf
      exact (h _ hw (by rw [hp]; exact hg)).1.elim
    | cons s g =>
      obtain ⟨hd, hf'⟩ := size_pos_cons hf
      obtain ⟨hs, hg'⟩ := size_pos_cons hg
      have hsame := h.sameLower hf hg
      obtain ⟨hlow, hsame⟩ : d.lower = s.lower ∧ lowers f = lowers g := by
        simpa [SameLower, lowers] using hsame
      refine ⟨hlow, ?_⟩
      rcases Nat.lt_trichotomy d.extent s.extent with hlt | he | hlt
      · -- an element of a later dimension would move to another place
        refine Or.inr (Or.inl ⟨hlt, ?_, hsame⟩)
        by_contra hne
        have hsize : 1 < size f := by omega
        obtain ⟨hw, hp⟩ := indexAt_spec f 1 hsize
        have hbound : s.extent * 1 ≤ s.extent * size g := Nat.mul_le_mul_left _ hg'
        obtain ⟨hw', hp'⟩ := h (d.lower :: indexAt f 1) ⟨⟨le_refl _, by omega⟩, hw⟩
          (by
            show (d.lower - d.lower).toNat + d.extent * position f (indexAt f 1) < s.extent * size g
            rw [hp]
            omega)
        change (d.lower - s.lower).toNat + s.extent * position g (indexAt f 1) =
          (d.lower - d.lower).toNat + d.extent * position f (indexAt f 1) at hp'
        rw [hp, hlow] at hp'
        rcases Nat.eq_zero_or_pos (position g (indexAt f 1)) with h0 | hpos
        · rw [h0] at hp'
          omega
        · have : s.extent * 1 ≤ s.extent * position g (indexAt f 1) := Nat.mul_le_mul_left _ hpos
          omega
      · refine Or.inl ⟨he, ih hf' hg' ?_⟩
        intro is hw hp
        obtain ⟨hw', hp'⟩ := h (d.lower :: is) ⟨⟨le_refl _, by omega⟩, hw⟩
          (by
            show (d.lower - d.lower).toNat + d.extent * position f is < s.extent * size g
            rw [sub_self, he]
            simpa using Nat.mul_lt_mul_of_pos_left hp hs)
        refine ⟨hw'.2, ?_⟩
        change (d.lower - s.lower).toNat + s.extent * position g is =
          (d.lower - d.lower).toNat + d.extent * position f is at hp'
        rw [hlow, he] at hp'
        exact Nat.eq_of_mul_eq_mul_left hs (Nat.add_left_cancel hp')
      · -- an index beyond the shorter dimension would have no place
        refine Or.inr (Or.inr ⟨hlt, ?_, hsame⟩)
        by_contra hne
        have hsize : s.extent * 2 ≤ s.extent * size g := Nat.mul_le_mul_left _ (by omega)
        obtain ⟨hw, hp⟩ := lowers_spec f hf'
        obtain ⟨hw', -⟩ := h ((d.lower + s.extent) :: lowers f) ⟨⟨by omega, by omega⟩, hw⟩
          (by
            show (d.lower + s.extent - d.lower).toNat + d.extent * position f (lowers f) <
              s.extent * size g
            rw [hp]
            omega)
        have := hw'.1.2
        omega

/-! ## Elements listed block by block -/

/-- Blocks of one length: the element at a position is in the block of the quotient. -/
theorem getElem?_flatMap_uniform {α β : Type} (l : List α) (g : α → List β) {n : ℕ} (hn : 0 < n)
    (hg : ∀ x ∈ l, (g x).length = n) (q : ℕ) :
    (l.flatMap g)[q]? = l[q / n]?.bind fun x => (g x)[q % n]? := by
  induction l generalizing q with
  | nil => rfl
  | cons x l ih =>
    have hx := hg x List.mem_cons_self
    rw [List.flatMap_cons]
    by_cases hq : q < n
    · rw [List.getElem?_append_left (by omega), Nat.div_eq_of_lt hq, Nat.mod_eq_of_lt hq]
      rfl
    · have hdiv : q / n = (q - n) / n + 1 := Nat.div_eq_sub_div hn (by omega)
      have hmod : q % n = (q - n) % n := Nat.mod_eq_sub_mod (by omega)
      rw [List.getElem?_append_right (by omega), hx,
        ih (fun y hy => hg y (List.mem_cons_of_mem _ hy)) (q - n), hdiv, hmod]
      rfl

end ArrayOrder
