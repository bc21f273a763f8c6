/-
# Heapsort in place

Heapsort of the cells `1, ..., n` by a key, with a hole that is moved down and
filled at the end.  The result is a rearrangement of these cells that is sorted
by the key (**`heapsort_spec`**).
-/
import Mathlib.Algebra.Order.Group.Nat
import Mathlib.Data.List.Perm.Basic
import Mathlib.Data.List.Nodup
import Mathlib.Logic.Function.Basic
import Mathlib.Tactic.Ring

namespace Heapsort

open Function

variable {α β : Type} [LinearOrder β] {key : α → β}

/-! ## The algorithm -/

/-- The larger child of a cell, the first one of two that are equal. -/
def largerChild (key : α → β) (a : ℕ → α) (root bound : ℕ) : ℕ :=
  if 2 * root < bound ∧ key (a (2 * root + 1)) > key (a (2 * root)) then 2 * root + 1 else 2 * root

/-- The loop of a sift: the hole at `root` moves down to where `held` goes. -/
def siftHole (key : α → β) (held : α) (bound : ℕ) (a : ℕ → α) (root : ℕ) (h : 0 < root) : ℕ → α :=
  if _h : bound < 2 * root then Function.update a root held
  else
    if key (a (largerChild key a root bound)) ≤ key held then Function.update a root held
    else
      siftHole key held bound (Function.update a root (a (largerChild key a root bound)))
        (largerChild key a root bound) (by unfold largerChild; split <;> omega)
termination_by bound + 1 - root
decreasing_by unfold largerChild; split <;> omega

/-- One sift. -/
def sift (key : α → β) (a : ℕ → α) (first bound : ℕ) (h : 0 < first) : ℕ → α :=
  siftHole key (a first) bound a first h

/-- Sifting the cells `k, ..., 1`. -/
def heapify (key : α → β) (n : ℕ) : ℕ → (ℕ → α) → ℕ → α
  | 0, a => a
  | k + 1, a => heapify key n k (sift key a (k + 1) n (Nat.succ_pos k))

/-- Taking the largest cell of `1, ..., last` to their end, for `last` down to 2. -/
def extract (key : α → β) : ℕ → (ℕ → α) → ℕ → α
  | 0, a => a
  | 1, a => a
  | k + 2, a =>
    let swapped := Function.update (Function.update a 1 (a (k + 2))) (k + 2) (a 1)
    extract key (k + 1) (sift key swapped 1 (k + 1) Nat.one_pos)

/-- The two loops. -/
def heapsort (key : α → β) (n : ℕ) (a : ℕ → α) : ℕ → α := extract key n (heapify key n (n / 2) a)

/-! ## Rearrangements -/

/-- The cells from `lo` to `hi` are rearranged, the others stay. -/
def Rearranges (lo hi : ℕ) (a b : ℕ → α) : Prop :=
  ∃ σ : Equiv.Perm ℕ, (∀ i, i < lo ∨ hi < i → σ i = i) ∧ b = a ∘ σ

theorem Rearranges.refl (lo hi : ℕ) (a : ℕ → α) : Rearranges lo hi a a :=
  ⟨Equiv.refl ℕ, fun _ _ => rfl, rfl⟩

variable {lo hi i hole root bound n : ℕ}

theorem Rearranges.trans {a b c : ℕ → α} (h : Rearranges lo hi a b)
    (h' : Rearranges lo hi b c) : Rearranges lo hi a c := by
  obtain ⟨σ, hσ, rfl⟩ := h
  obtain ⟨τ, hτ, rfl⟩ := h'
  refine ⟨τ.trans σ, ?_, rfl⟩
  intro i hi
  rw [Equiv.trans_apply, hτ i hi, hσ i hi]

theorem Rearranges.mono {lo' hi' : ℕ} {a b : ℕ → α} (h : Rearranges lo hi a b)
    (hlo : lo' ≤ lo) (hhi : hi ≤ hi') : Rearranges lo' hi' a b := by
  obtain ⟨σ, hσ, rfl⟩ := h
  exact ⟨σ, fun i hi => hσ i (by omega), rfl⟩

theorem Rearranges.outside {a b : ℕ → α} (h : Rearranges lo hi a b)
    (hi : i < lo ∨ hi < i) : b i = a i := by
  obtain ⟨σ, hσ, rfl⟩ := h
  rw [Function.comp_apply, hσ i hi]

/-- A cell of the range comes from one of the range. -/
theorem Rearranges.inside {a b : ℕ → α} (h : Rearranges lo hi a b)
    (hlo : lo ≤ i) (hhi : i ≤ hi) : ∃ j, lo ≤ j ∧ j ≤ hi ∧ b i = a j := by
  obtain ⟨σ, hσ, rfl⟩ := h
  refine ⟨σ i, ?_, ?_, rfl⟩
  · by_contra hlt
    have hfix := hσ (σ i) (Or.inl (by omega))
    have := σ.injective hfix
    omega
  · by_contra hlt
    have hfix := hσ (σ i) (Or.inr (by omega))
    have := σ.injective hfix
    omega

theorem rearranges_swap {j : ℕ} (a : ℕ → α) (hi' : lo ≤ i ∧ i ≤ hi) (hj : lo ≤ j ∧ j ≤ hi) :
    Rearranges lo hi a (a ∘ Equiv.swap i j) := by
  refine ⟨Equiv.swap i j, ?_, rfl⟩
  intro k hk
  exact Equiv.swap_apply_of_ne_of_ne (by omega) (by omega)

/-- Moving a cell into the hole is a swap with the held one. -/
theorem update_swap (a : ℕ → α) (held : α) (i j : ℕ) :
    update (update a i (a j)) j held =
      update a i held ∘ Equiv.swap i j := by
  funext k
  rw [Function.comp_apply]
  rcases eq_or_ne k j with rfl | hkj
  · rw [update_self, Equiv.swap_apply_right, update_self]
  · rw [update_of_ne hkj]
    rcases eq_or_ne k i with rfl | hki
    · rw [update_self, Equiv.swap_apply_left, update_of_ne hkj.symm]
    · rw [update_of_ne hki, Equiv.swap_apply_of_ne_of_ne hki hkj,
        update_of_ne hki]

/-! ## Heaps -/

/-- The cells from `lo` to `hi` are no larger than the ones above them. -/
def HeapFrom (key : α → β) (lo hi : ℕ) (a : ℕ → α) : Prop :=
  ∀ c, c ≤ hi → lo ≤ c / 2 → key (a c) ≤ key (a (c / 2))

/-- A heap but for the cells below `hole`, which do not exceed the one above it. -/
structure HeapExcept (key : α → β) (lo hi hole : ℕ) (a : ℕ → α) : Prop where
  edge : ∀ c, c ≤ hi → lo ≤ c / 2 → c / 2 ≠ hole → key (a c) ≤ key (a (c / 2))
  grand : ∀ c, c ≤ hi → c / 2 = hole → lo ≤ hole / 2 → key (a c) ≤ key (a (hole / 2))

variable {a : ℕ → α}

/-- Where the cells below the hole are no larger either, there is no hole. -/
theorem HeapExcept.heap (h : HeapExcept key lo hi hole a)
    (hb : ∀ c, c ≤ hi → c / 2 = hole → key (a c) ≤ key (a hole)) : HeapFrom key lo hi a := by
  intro c hc hlo
  by_cases hhole : c / 2 = hole
  · rw [hhole]
    exact hb c hc hhole
  · exact h.edge c hc hlo hhole

/-- The hole moves to a child that is larger than the held cell and not smaller than the other. -/
theorem HeapExcept.down {m : ℕ} (h : HeapExcept key lo hi hole a)
    (hlo : lo ≤ hole) (_ : 0 < hole) (hm : m / 2 = hole) (hmhi : m ≤ hi)
    (hmax : ∀ c, c ≤ hi → c / 2 = hole → key (a c) ≤ key (a m))
    (hheld : key (a hole) ≤ key (a m)) :
    HeapExcept key lo hi m (a ∘ Equiv.swap hole m) := by
  have hat : ∀ k, k ≠ hole → k ≠ m → (a ∘ Equiv.swap hole m) k = a k := by
    intro k hk hkm
    rw [Function.comp_apply, Equiv.swap_apply_of_ne_of_ne hk hkm]
  have hhole : (a ∘ Equiv.swap hole m) hole = a m := by
    rw [Function.comp_apply, Equiv.swap_apply_left]
  have hatm : (a ∘ Equiv.swap hole m) m = a hole := by
    rw [Function.comp_apply, Equiv.swap_apply_right]
  constructor
  · intro c hc hlo' hne
    by_cases hcm : c = m
    · rw [hcm, hm, hatm, hhole]
      exact hheld
    · by_cases hcp : c / 2 = hole
      · rw [hcp, hhole, hat c (by omega) hcm]
        exact hmax c hc hcp
      · by_cases hch : c = hole
        · -- the cell above the hole bounds what moves up
          rw [hch, hhole, hat (hole / 2) (by omega) (by omega)]
          exact h.grand m hmhi hm (by omega)
        · rw [hat c hch hcm, hat (c / 2) hcp hne]
          exact h.edge c hc hlo' hcp
  · intro c hc hcm _
    rw [hm, hhole, hat c (by omega) (by omega)]
    have hedge := h.edge c hc (by omega) (by omega)
    rwa [hcm] at hedge

/-- What is chosen is a child, and no other child is larger. -/
theorem largerChild_spec (key : α → β) (a : ℕ → α) (_ : 0 < root) (h : 2 * root ≤ bound) :
    largerChild key a root bound / 2 = root ∧ largerChild key a root bound ≤ bound ∧
      ∀ c, c ≤ bound → c / 2 = root → key (a c) ≤ key (a (largerChild key a root bound)) := by
  unfold largerChild
  split_ifs with hlt
  · refine ⟨by omega, by omega, ?_⟩
    intro c hc hroot
    obtain rfl | rfl : c = 2 * root ∨ c = 2 * root + 1 := by omega
    · exact hlt.2.le
    · exact le_rfl
  · refine ⟨by omega, by omega, ?_⟩
    intro c hc hroot
    obtain rfl | rfl : c = 2 * root ∨ c = 2 * root + 1 := by omega
    · exact le_rfl
    · rw [not_and, not_lt] at hlt
      exact hlt (by omega)

/-! ## Sifts -/

/-- **A sift** rearranges the cells from the hole on and leaves a heap. -/
theorem siftHole_spec (held : α) (a : ℕ → α) (hpos : 0 < root)
    (hlo : lo ≤ root) (hb : root ≤ bound)
    (h : HeapExcept key lo bound root (update a root held)) :
    HeapFrom key lo bound (siftHole key held bound a root hpos) ∧
      Rearranges root bound (update a root held) (siftHole key held bound a root hpos) := by
  induction a, root, hpos using siftHole.induct key held bound with
  | case1 a root hpos hleaf =>
    rw [siftHole, dif_pos hleaf]
    refine ⟨h.heap ?_, .refl _ _ _⟩
    intro c hc hroot
    omega
  | case2 a root hpos hleaf hle =>
    rw [siftHole, dif_neg hleaf, if_pos hle]
    refine ⟨h.heap ?_, .refl _ _ _⟩
    intro c hc hroot
    obtain ⟨-, -, hmax⟩ := largerChild_spec key a hpos (not_lt.mp hleaf)
    rw [update_self, update_of_ne (by omega)]
    exact (hmax c hc hroot).trans hle
  | case3 a root hpos hleaf hgt ih =>
    obtain ⟨hm, hmb, hmax⟩ := largerChild_spec key a hpos (not_lt.mp hleaf)
    rw [siftHole, dif_neg hleaf, if_neg hgt]
    have hne : largerChild key a root bound ≠ root := by omega
    have hdown := h.down hlo hpos hm hmb
      (by
        intro c hc hroot
        rw [update_of_ne hne, update_of_ne (by omega)]
        exact hmax c hc hroot)
      (by
        rw [update_self, update_of_ne hne]
        exact (not_le.mp hgt).le)
    rw [← update_swap] at hdown
    obtain ⟨hheap, hre⟩ := ih (by omega) hmb hdown
    refine ⟨hheap, ?_⟩
    rw [update_swap] at hre
    exact (rearranges_swap _ ⟨le_rfl, hb⟩ ⟨by omega, hmb⟩).trans (hre.mono (by omega) le_rfl)

theorem sift_spec {first : ℕ} (hpos : 0 < first) (hb : first ≤ bound)
    (h : HeapFrom key (first + 1) bound a) :
    HeapFrom key first bound (sift key a first bound hpos) ∧
      Rearranges first bound a (sift key a first bound hpos) := by
  have hself : update a first (a first) = a := update_eq_self ..
  have hexcept : HeapExcept key first bound first (update a first (a first)) := by
    rw [hself]
    constructor
    · intro c hc hlo hne
      exact h c hc (by omega)
    · intro c hc hcf hlo
      omega
  have hspec := siftHole_spec (a first) a hpos le_rfl hb hexcept
  rwa [hself] at hspec

/-! ## The sort -/

theorem heapify_spec {k : ℕ} (hk : 2 * k ≤ n) (h : HeapFrom key (k + 1) n a) :
    HeapFrom key 1 n (heapify key n k a) ∧ Rearranges 1 n a (heapify key n k a) := by
  induction k generalizing a with
  | zero => exact ⟨h, .refl _ _ _⟩
  | succ k ih =>
    obtain ⟨hheap, hre⟩ := sift_spec (Nat.succ_pos k) (by omega) h
    obtain ⟨hheap', hre'⟩ := ih (by omega) hheap
    exact ⟨hheap', (hre.mono (by omega) le_rfl).trans hre'⟩

/-- The first cell of a heap is the largest. -/
theorem HeapFrom.le_first (h : HeapFrom key 1 n a) {c : ℕ} (hc : 1 ≤ c)
    (hn : c ≤ n) : key (a c) ≤ key (a 1) := by
  induction c using Nat.strongRecOn with
  | ind c ih =>
    by_cases h1 : c = 1
    · rw [h1]
    · exact (h c hn (by omega)).trans (ih (c / 2) (by omega) (by omega) (by omega))

/-- The cells from `last + 1` on are sorted, and no cell before them is larger. -/
structure SortedAbove (key : α → β) (last n : ℕ) (a : ℕ → α) : Prop where
  sorted : ∀ i j, last < i → i ≤ j → j ≤ n → key (a i) ≤ key (a j)
  below : ∀ i j, 1 ≤ i → i ≤ last → last < j → j ≤ n → key (a i) ≤ key (a j)

theorem extract_spec {last : ℕ} (hn : last ≤ n) (h : HeapFrom key 1 last a)
    (hs : SortedAbove key last n a) :
    (∀ i j, 1 ≤ i → i ≤ j → j ≤ n → key (extract key last a i) ≤ key (extract key last a j)) ∧
      Rearranges 1 n a (extract key last a) := by
  induction last using Nat.strongRecOn generalizing a with
  | ind last ih =>
    match last with
    | 0 => exact ⟨fun i j hi hij hj => hs.sorted i j (by omega) hij hj, .refl _ _ _⟩
    | 1 =>
      refine ⟨?_, .refl _ _ _⟩
      intro i j hi hij hj
      rcases Nat.lt_or_ge 1 i with hi' | hi'
      · exact hs.sorted i j hi' hij hj
      · obtain rfl : i = 1 := by omega
        rcases Nat.lt_or_ge 1 j with hj' | hj'
        · exact hs.below 1 j le_rfl le_rfl hj' hj
        · obtain rfl : j = 1 := by omega
          exact le_rfl
    | k + 2 =>
      have hswap : update (update a 1 (a (k + 2))) (k + 2) (a 1) =
          a ∘ Equiv.swap 1 (k + 2) := by
        rw [update_swap, update_eq_self]
      have hat : ∀ i, i ≠ 1 → i ≠ k + 2 → (a ∘ Equiv.swap 1 (k + 2)) i = a i := by
        intro i h1 hk
        rw [Function.comp_apply, Equiv.swap_apply_of_ne_of_ne h1 hk]
      have hlast : (a ∘ Equiv.swap 1 (k + 2)) (k + 2) = a 1 := by
        rw [Function.comp_apply, Equiv.swap_apply_right]
      -- behind the exchange only the root may be out of place
      have hheap : HeapFrom key (1 + 1) (k + 1) (a ∘ Equiv.swap 1 (k + 2)) := by
        intro c hc hc2
        rw [hat c (by omega) (by omega), hat (c / 2) (by omega) (by omega)]
        exact h c (by omega) (by omega)
      obtain ⟨hheap', hre⟩ := sift_spec Nat.one_pos (by omega) hheap
      have hout : ∀ i, k + 1 < i →
          sift key (a ∘ Equiv.swap 1 (k + 2)) 1 (k + 1) Nat.one_pos i =
            (a ∘ Equiv.swap 1 (k + 2)) i := fun i hi => hre.outside (Or.inr hi)
      have hle : ∀ i, 1 ≤ i → i ≤ k + 2 → key ((a ∘ Equiv.swap 1 (k + 2)) i) ≤ key (a 1) := by
        intro i hi hik
        have hre₀ : Rearranges 1 (k + 2) a (a ∘ Equiv.swap 1 (k + 2)) :=
          rearranges_swap a ⟨le_rfl, by omega⟩ ⟨by omega, le_rfl⟩
        obtain ⟨j, hj, hjk, heq⟩ := hre₀.inside hi hik
        rw [heq]
        exact h.le_first hj hjk
      -- the end that is sorted grows by the largest key of the heap
      have hs' : SortedAbove key (k + 1) n
          (sift key (a ∘ Equiv.swap 1 (k + 2)) 1 (k + 1) Nat.one_pos) := by
        constructor
        · intro i j hi hij hj
          rw [hout i hi, hout j (by omega)]
          rcases Nat.lt_or_ge (k + 2) i with hi' | hi'
          · rw [hat i (by omega) (by omega), hat j (by omega) (by omega)]
            exact hs.sorted i j hi' hij hj
          · obtain rfl : i = k + 2 := by omega
            rw [hlast]
            rcases Nat.lt_or_ge (k + 2) j with hj' | hj'
            · rw [hat j (by omega) (by omega)]
              exact hs.below 1 j le_rfl (by omega) hj' hj
            · obtain rfl : j = k + 2 := by omega
              rw [hlast]
        · intro i j hi hik hj hjn
          obtain ⟨i', hi', hik', heq⟩ := hre.inside hi hik
          rw [heq, hout j hj]
          rcases Nat.lt_or_ge (k + 2) j with hj' | hj'
          · rw [hat j (by omega) (by omega)]
            exact (hle i' hi' (by omega)).trans (hs.below 1 j le_rfl (by omega) hj' hjn)
          · obtain rfl : j = k + 2 := by omega
            rw [hlast]
            exact hle i' hi' (by omega)
      obtain ⟨hsorted, hre'⟩ := ih (k + 1) (by omega) (by omega) hheap' hs'
      unfold extract
      simp only [hswap]
      refine ⟨hsorted, ?_⟩
      exact ((rearranges_swap a ⟨le_rfl, by omega⟩ ⟨by omega, hn⟩).trans
        (hre.mono le_rfl (by omega))).trans hre'

/-- **Heapsort sorts**: the cells `1, ..., n` are rearranged, in the order of their keys. -/
theorem heapsort_spec (key : α → β) (n : ℕ) (a : ℕ → α) :
    (∀ i j, 1 ≤ i → i ≤ j → j ≤ n → key (heapsort key n a i) ≤ key (heapsort key n a j)) ∧
      Rearranges 1 n a (heapsort key n a) := by
  have hleaves : HeapFrom key (n / 2 + 1) n a := fun c hc hlo => by omega
  obtain ⟨hheap, hre⟩ := heapify_spec (by omega) hleaves
  obtain ⟨hsorted, hre'⟩ := extract_spec le_rfl hheap
    ⟨fun i j hi hij hj => by omega, fun i j hi hin hj hjn => by omega⟩
  exact ⟨hsorted, hre.trans hre'⟩

end Heapsort
