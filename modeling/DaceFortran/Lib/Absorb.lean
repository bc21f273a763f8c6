/-
# Sets absorbed by a growing set

A set grows by every unit it meets, round after round, until no unit adds anything.  What it ends
with is the least set that contains the start and every unit it meets, whatever the order of the
units.
-/
import Mathlib.Data.Finset.Card

namespace Absorb

variable {α : Type*}

/-- What is reached from the start over units that share something. -/
inductive Touched (unit : Set α → Prop) (start : Set α) : α → Prop
  | start {x : α} (h : x ∈ start) : Touched unit start x
  | unit {u : Set α} {x y : α} (hu : unit u) (hx : x ∈ u) (h : Touched unit start x) (hy : y ∈ u) :
      Touched unit start y

variable {unit : Set α → Prop} {start : Set α}

/-- The least set that contains the start and every unit it meets. -/
theorem Touched.subset {s : Set α} (hstart : start ⊆ s)
    (hunit : ∀ u, unit u → (∃ x ∈ u, x ∈ s) → u ⊆ s) {x : α} (h : Touched unit start x) :
    x ∈ s := by
  induction h with
  | start h => exact hstart h
  | unit hu hx _ hy ih => exact hunit _ hu ⟨_, hx, ih⟩ hy

theorem touched_congr {unit' : Set α → Prop} {start' : Set α} (hunit : ∀ u, unit u ↔ unit' u)
    (hstart : start = start') (x : α) : Touched unit start x ↔ Touched unit' start' x := by
  have h : unit = unit' := by
    funext u
    exact propext (hunit u)
  rw [h, hstart]

section images

variable {β : Type*} (f : α → β)

/-- The units seen through a map. -/
def imageUnit (unit : Set α → Prop) (v : Set β) : Prop := ∃ u, unit u ∧ v = Set.image f u

theorem Touched.image {x : α} (h : Touched unit start x) :
    Touched (imageUnit f unit) (Set.image f start) (f x) := by
  induction h with
  | start h => exact .start (Set.mem_image_of_mem f h)
  | unit hu hx _ hy ih =>
    exact .unit ⟨_, hu, rfl⟩ (Set.mem_image_of_mem f hx) ih (Set.mem_image_of_mem f hy)

/-- Where the units have no two names of one image of which only one is reached, the map reaches
nothing more. -/
theorem exists_of_touched_image
    (h : ∀ x y, Touched unit start x → f x = f y → (∃ u, unit u ∧ y ∈ u) → Touched unit start y)
    {b : β} (hb : Touched (imageUnit f unit) (Set.image f start) b) :
    ∃ x, Touched unit start x ∧ f x = b := by
  induction hb with
  | start hb =>
    obtain ⟨x, hx, rfl⟩ := hb
    exact ⟨x, .start hx, rfl⟩
  | unit hu hx _ hy ih =>
    obtain ⟨u, hu, rfl⟩ := hu
    obtain ⟨y, hyu, rfl⟩ := hx
    obtain ⟨z, hzu, rfl⟩ := hy
    obtain ⟨x, hx, hxy⟩ := ih
    have hy : Touched unit start y := h x y hx hxy ⟨u, hu, hyu⟩
    exact ⟨z, .unit hu hyu hy hzu, rfl⟩

end images

/-! ## The loop -/

variable [DecidableEq α]

/-- The set grows by a unit it meets. -/
def absorb (st : Finset α × Bool) (data : Finset α) : Finset α × Bool :=
  if (data ∩ st.1).Nonempty ∧ ¬ data ⊆ st.1 then (st.1 ∪ data, true) else st

/-- One round over the units. -/
def round (units : List (Finset α)) (device : Finset α) : Finset α × Bool :=
  units.foldl absorb (device, false)

theorem subset_absorb (st : Finset α × Bool) (data : Finset α) : st.1 ⊆ (absorb st data).1 := by
  unfold absorb
  split_ifs
  · exact Finset.subset_union_left
  · exact Finset.Subset.refl _

variable (units : List (Finset α))

theorem subset_foldl :
    ∀ st : Finset α × Bool, st.1 ⊆ (units.foldl absorb st).1 := by
  induction units with
  | nil => exact fun st => Finset.Subset.refl _
  | cons data units ih => exact fun st => (subset_absorb st data).trans (ih _)

/-- All a round can add. -/
def total (units : List (Finset α)) : Finset α := units.foldr (· ∪ ·) ∅

theorem mem_total {units : List (Finset α)} {x : α} : x ∈ total units ↔ ∃ u ∈ units, x ∈ u := by
  induction units with
  | nil => simp [total]
  | cons data units ih =>
    have hcons : total (data :: units) = data ∪ total units := rfl
    rw [hcons, Finset.mem_union, ih]
    simp

/-- A round that changed something added an element of a unit. -/
theorem foldl_changed : ∀ st : Finset α × Bool, st.2 = false →
    (units.foldl absorb st).2 = true →
      ∃ x ∈ total units, x ∉ st.1 ∧ x ∈ (units.foldl absorb st).1 := by
  induction units with
  | nil =>
    intro st hfalse htrue
    rw [List.foldl_nil, hfalse] at htrue
    cases htrue
  | cons data units ih =>
    intro st hfalse htrue
    rw [List.foldl_cons] at htrue ⊢
    by_cases hadds : (data ∩ st.1).Nonempty ∧ ¬ data ⊆ st.1
    · obtain ⟨x, hx, hxst⟩ := Finset.not_subset.1 hadds.2
      refine ⟨x, mem_total.2 ⟨data, List.mem_cons_self, hx⟩, hxst, ?_⟩
      have habsorb : absorb st data = (st.1 ∪ data, true) := if_pos hadds
      rw [habsorb]
      exact subset_foldl units _ (Finset.mem_union_right _ hx)
    · have habsorb : absorb st data = st := if_neg hadds
      rw [habsorb] at htrue ⊢
      obtain ⟨x, hx, hxst, hmem⟩ := ih st hfalse htrue
      obtain ⟨u, hu, hxu⟩ := mem_total.1 hx
      exact ⟨x, mem_total.2 ⟨u, List.mem_cons_of_mem _ hu, hxu⟩, hxst, hmem⟩

/-- Rounds until one changes nothing. -/
def loop (units : List (Finset α)) (device : Finset α) : Finset α :=
  if (round units device).2 = true then loop units (round units device).1
    else (round units device).1
termination_by (total units \ device).card
decreasing_by
  obtain ⟨x, hx, hxd, hmem⟩ := foldl_changed units (device, false) rfl ‹_›
  apply Finset.card_lt_card
  constructor
  · exact Finset.sdiff_subset_sdiff (Finset.Subset.refl _) (subset_foldl units (device, false))
  · intro h
    have hx' := h (Finset.mem_sdiff.2 ⟨hx, hxd⟩)
    exact (Finset.mem_sdiff.1 hx').2 hmem

/-- The units of a list. -/
def OneOf (units : List (Finset α)) (u : Set α) : Prop := ∃ data ∈ units, u = (data : Set α)

theorem foldl_touched (all : List (Finset α)) (first : Finset α) (units : List (Finset α)) :
    (∀ u ∈ units, u ∈ all) → ∀ st : Finset α × Bool,
      (∀ x ∈ st.1, Touched (OneOf all) (first : Set α) x) →
        ∀ x ∈ (units.foldl absorb st).1, Touched (OneOf all) (first : Set α) x := by
  induction units with
  | nil => exact fun _ st h => h
  | cons data units ih =>
    intro hall st h
    refine ih (fun u hu => hall u (List.mem_cons_of_mem _ hu)) _ ?_
    intro x hx
    unfold absorb at hx
    split_ifs at hx with hadds
    · rcases Finset.mem_union.1 hx with hx | hx
      · exact h x hx
      · obtain ⟨y, hy⟩ := hadds.1
        obtain ⟨hyd, hys⟩ := Finset.mem_inter.1 hy
        exact .unit ⟨data, hall data List.mem_cons_self, rfl⟩ hyd (h y hys) hx
    · exact h x hx

/-- After a round that changed nothing every unit that is met is contained. -/
theorem foldl_closed : ∀ st : Finset α × Bool, st.2 = false →
    (units.foldl absorb st).2 = false → (units.foldl absorb st).1 = st.1 ∧
      ∀ data ∈ units, (data ∩ st.1).Nonempty → data ⊆ st.1 := by
  induction units with
  | nil =>
    intro st _ _
    refine ⟨rfl, ?_⟩
    intro data hdata
    cases hdata
  | cons data units ih =>
    intro st hst h
    rw [List.foldl_cons] at h ⊢
    by_cases hadds : (data ∩ st.1).Nonempty ∧ ¬ data ⊆ st.1
    · have habsorb : absorb st data = (st.1 ∪ data, true) := if_pos hadds
      rw [habsorb] at h
      have hkeeps : ∀ (us : List (Finset α)) (s : Finset α × Bool), s.2 = true →
          (us.foldl absorb s).2 = true := by
        intro us
        induction us with
        | nil => exact fun s hs => hs
        | cons v us ihus =>
          intro s hs
          refine ihus _ ?_
          unfold absorb
          split_ifs
          · rfl
          · exact hs
      rw [hkeeps units _ rfl] at h
      cases h
    · have habsorb : absorb st data = st := if_neg hadds
      rw [habsorb] at h ⊢
      obtain ⟨hsame, hclosed⟩ := ih st hst h
      refine ⟨hsame, ?_⟩
      intro u hu hmeets
      rcases List.mem_cons.1 hu with rfl | hu
      · by_contra hsub
        exact hadds ⟨hmeets, hsub⟩
      · exact hclosed u hu hmeets

theorem loop_spec (first device : Finset α) (hfirst : first ⊆ device)
    (hdevice : ∀ x ∈ device, Touched (OneOf units) (first : Set α) x) (x : α) :
    x ∈ loop units device ↔ Touched (OneOf units) (first : Set α) x := by
  fun_induction loop units device with
  | case1 device hchanged ih =>
    refine ih (hfirst.trans (subset_foldl units (device, false))) ?_
    exact foldl_touched units first units (fun u hu => hu) (device, false) hdevice
  | case2 device hchanged =>
    have hflag : (units.foldl absorb (device, false)).2 = false := Bool.eq_false_iff.2 hchanged
    obtain ⟨hsame, hclosed⟩ := foldl_closed units (device, false) rfl hflag
    have hround : (round units device).1 = device := hsame
    rw [hround]
    refine ⟨hdevice x, ?_⟩
    intro h
    refine h.subset (s := (device : Set α)) (by exact_mod_cast hfirst) ?_
    rintro u ⟨data, hdata, rfl⟩ ⟨y, hy, hyd⟩
    have hmeets : (data ∩ device).Nonempty :=
      ⟨y, Finset.mem_inter.2 ⟨by exact_mod_cast hy, by exact_mod_cast hyd⟩⟩
    exact_mod_cast hclosed data hdata hmeets

/-- The loop ends with what is reached. -/
theorem mem_loop (start : Finset α) (x : α) :
    x ∈ loop units start ↔ Touched (OneOf units) (start : Set α) x :=
  loop_spec units start start (Finset.Subset.refl _) (fun _ hx => .start (by exact_mod_cast hx)) x

end Absorb
