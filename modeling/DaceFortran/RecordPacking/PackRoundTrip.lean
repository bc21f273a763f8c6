/-
# Packing and unpacking are inverse and aligned

The common bounds hold for every member with elements (`lbs_spec`, `caps_spec`), so
the host and the device loops go through the same pairs of subscripts
(`hostPairs_eq`, `devicePairs_eq`); distinct pairs are stored apart, and the buffer
holds each value where it is read back (**`packing_alignedOnHost`**).
-/
import DaceFortran.RecordPacking.PackRecords

open List

namespace RecordPacking

open Function

variable {n k : ℕ} {α : Type}

/-! ## Loop nests -/

theorem mem_overElements {k : ℕ} {extents : Fin k → ℕ} {e : Fin k → ℤ} :
    e ∈ overElements extents ↔ ∀ d, 1 ≤ e d ∧ e d ≤ extents d := by
  induction k with
  | zero =>
    constructor
    · intro _ d
      exact d.elim0
    · intro _
      exact mem_singleton.mpr (funext fun d => d.elim0)
  | succ k ih =>
    simp only [overElements, mem_flatMap, mem_map, mem_range]
    constructor
    · rintro ⟨rest, hrest, i, hi, rfl⟩ d
      refine Fin.cases ?_ (fun d => ?_) d
      · rw [Fin.cons_zero]
        omega
      · rw [Fin.cons_succ]
        exact ih.mp hrest d
    · intro h
      refine ⟨Fin.tail e, ih.mpr fun d => h d.succ, (e 0 - 1).toNat, ?_, ?_⟩
      · have h0 := h 0
        omega
      · have h0 := h 0
        have hcast : ((e 0 - 1).toNat : ℤ) + 1 = e 0 := by omega
        rw [hcast, Fin.cons_self_tail]

variable {e : Fin k → ℤ} {m : Member n α} {r : Records k n α} {membersFirst : Bool}

/-- A record that the loops go through, with its member. -/
theorem mem_presents :
    (e, m) ∈ r.presents ↔ (∀ d, 1 ≤ e d ∧ e d ≤ r.extents d) ∧ r.member e = some m := by
  unfold Records.presents
  rw [mem_filterMap]
  constructor
  · rintro ⟨e', he', h⟩
    obtain ⟨m', hm', heq⟩ := Option.map_eq_some_iff.mp h
    obtain ⟨rfl, rfl⟩ := Prod.mk.inj heq
    exact ⟨mem_overElements.mp he', hm'⟩
  · rintro ⟨he, hm⟩
    refine ⟨e, mem_overElements.mpr he, ?_⟩
    rw [hm]
    rfl

/-! ## Bounds of one dimension -/

theorem Bounds.size_eq (b : Bounds) : (b.size : ℤ) = b.ubound - b.lbound + 1 := by
  unfold Bounds.size Bounds.ubound Bounds.lbound
  split_ifs <;> omega

variable {s lbs : Fin n → ℤ} {cell : List ℤ → α}

/-- A subscript in bounds is one of the range. -/
theorem Member.nonempty_of_inBounds (h : m.InBounds s) :
    m.nonempty = true := by
  refine decide_eq_true fun d => ?_
  have hs := (m.bounds d).size_eq
  have hd := h d
  omega

theorem ownExtent_eq (lb : ℤ) (b : Bounds) : ownExtent lb b = b.size := by
  unfold ownExtent ownFirst ownLast Bounds.size
  congr 1
  ring

/-! ## The common bounds -/

/-- What the first loop has after some members: the smallest of their lower bounds. -/
structure Lowest (l : List ((Fin k → ℤ) × Member n α)) (s : (Fin n → ℤ) × Bool) : Prop where
  taken : s.2 = true ↔ ∃ p ∈ l, p.2.nonempty = true
  le : ∀ p ∈ l, p.2.nonempty = true → ∀ d, s.1 d ≤ (p.2.bounds d).lbound
  attained : s.2 = true → ∀ d, ∃ p ∈ l, p.2.nonempty = true ∧ (p.2.bounds d).lbound = s.1 d

/-- One more member. -/
theorem Lowest.append {l : List ((Fin k → ℤ) × Member n α)} {s : (Fin n → ℤ) × Bool}
    (h : Lowest l s) (p : (Fin k → ℤ) × Member n α) : Lowest (l ++ [p]) (takeLowers [p] s) := by
  have hmem : ∀ q, q ∈ l ++ [p] ↔ q ∈ l ∨ q = p := by
    intro q
    rw [mem_append, mem_singleton]
  unfold takeLowers
  rw [foldl_cons, foldl_nil]
  by_cases hp : p.2.nonempty = true
  · rw [if_pos hp]
    refine ⟨?_, ?_, ?_⟩
    · exact iff_of_true rfl ⟨p, (hmem p).mpr (Or.inr rfl), hp⟩
    · intro q hq hne d
      rcases (hmem q).mp hq with hq | rfl
      · have htaken := h.taken.mpr ⟨q, hq, hne⟩
        simp only [htaken, if_true]
        exact (min_le_left _ _).trans (h.le q hq hne d)
      · exact min_le_right _ _
    · intro _ d
      rcases hs : s.2 with _ | _
      · refine ⟨p, (hmem p).mpr (Or.inr rfl), hp, ?_⟩
        simp
      · simp only [if_true]
        rcases le_total (s.1 d) (p.2.bounds d).lbound with hle | hle
        · obtain ⟨q, hq, hne, heq⟩ := h.attained hs d
          refine ⟨q, (hmem q).mpr (Or.inl hq), hne, ?_⟩
          rw [min_eq_left hle, heq]
        · refine ⟨p, (hmem p).mpr (Or.inr rfl), hp, ?_⟩
          rw [min_eq_right hle]
  · rw [if_neg hp]
    refine ⟨?_, ?_, ?_⟩
    · rw [h.taken]
      constructor
      · rintro ⟨q, hq, hne⟩
        exact ⟨q, (hmem q).mpr (Or.inl hq), hne⟩
      · rintro ⟨q, hq, hne⟩
        rcases (hmem q).mp hq with hq | rfl
        · exact ⟨q, hq, hne⟩
        · exact absurd hne hp
    · intro q hq hne d
      rcases (hmem q).mp hq with hq | rfl
      · exact h.le q hq hne d
      · exact absurd hne hp
    · intro hs d
      obtain ⟨q, hq, hne, heq⟩ := h.attained hs d
      exact ⟨q, (hmem q).mpr (Or.inl hq), hne, heq⟩

/-- **The lower bounds are the smallest ones.** -/
theorem lbs_spec (r : Records k n α) :
    Lowest r.presents (takeLowers r.presents (fun _ => 1, false)) := by
  have h : ∀ (l done : List ((Fin k → ℤ) × Member n α)) (s : (Fin n → ℤ) × Bool),
      Lowest done s → Lowest (done ++ l) (takeLowers l s) := by
    intro l
    induction l with
    | nil =>
      intro done s hs
      rw [append_nil]
      exact hs
    | cons p l ih =>
      intro done s hs
      have hstep := ih (done ++ [p]) _ (hs.append p)
      rw [append_assoc] at hstep
      exact hstep
  refine h r.presents [] _ ⟨?_, ?_, ?_⟩
  · simp
  · intro p hp
    cases hp
  · intro hs
    cases hs

/-- The caps reach the last subscript of every member with elements. -/
theorem takeCaps_spec (lbs : Fin n → ℤ) (l : List ((Fin k → ℤ) × Member n α)) (caps : Fin n → ℤ) :
    (∀ d, caps d ≤ takeCaps lbs l caps d) ∧ ∀ p ∈ l, p.2.nonempty = true → ∀ d,
      (p.2.bounds d).ubound - lbs d + 1 ≤ takeCaps lbs l caps d := by
  induction l generalizing caps with
  | nil => exact ⟨fun _ => le_rfl, fun p hp => absurd hp not_mem_nil⟩
  | cons q l ih =>
    unfold takeCaps at ih ⊢
    rw [foldl_cons]
    obtain ⟨hle, hmem⟩ := ih (if q.2.nonempty = true then
      fun d => max (caps d) ((q.2.bounds d).ubound - lbs d + 1) else caps)
    constructor
    · intro d
      refine le_trans ?_ (hle d)
      split_ifs
      · exact le_max_left _ _
      · exact le_rfl
    · intro p hp hne d
      rcases mem_cons.mp hp with rfl | hp
      · refine le_trans ?_ (hle d)
        rw [if_pos hne]
        exact le_max_right _ _
      · exact hmem p hp hne d

/-- A cap is where the loop began, or the reach of some member. -/
theorem takeCaps_attained (lbs : Fin n → ℤ) (l : List ((Fin k → ℤ) × Member n α))
    (caps : Fin n → ℤ) (d : Fin n) :
    takeCaps lbs l caps d = caps d ∨ ∃ p ∈ l, p.2.nonempty = true ∧
      takeCaps lbs l caps d = (p.2.bounds d).ubound - lbs d + 1 := by
  induction l generalizing caps with
  | nil => exact Or.inl rfl
  | cons q l ih =>
    unfold takeCaps at ih ⊢
    rw [foldl_cons]
    rcases ih (if q.2.nonempty = true then
      fun d => max (caps d) ((q.2.bounds d).ubound - lbs d + 1) else caps) with h | ⟨p, hp, hne, h⟩
    · rw [h]
      split_ifs with hq
      · rcases max_choice (caps d) ((q.2.bounds d).ubound - lbs d + 1) with hmax | hmax
        · exact Or.inl hmax
        · exact Or.inr ⟨q, mem_cons_self, hq, hmax⟩
      · exact Or.inl rfl
    · exact Or.inr ⟨p, mem_cons_of_mem _ hp, hne, h⟩

/-- **The caps hold every member.** -/
theorem caps_spec (r : Records k n α) :
    ∀ p ∈ r.presents, p.2.nonempty = true →
      ∀ d, (p.2.bounds d).ubound - r.lbs d + 1 ≤ r.caps d := by
  intro p hp hne d
  have h := (takeCaps_spec r.lbs r.presents fun _ => 0).2 p hp hne d
  unfold Records.caps
  split_ifs with h0
  · rw [h0] at h
    omega
  · exact h

/-! ## The pairs of the copy loops -/

/-- The pairs of one member: every element with its position. -/
theorem mem_hostPairs {q : (Fin n → ℤ) × (Fin n → ℤ)} :
    q ∈ hostPairs lbs m ↔ m.InBounds q.2 ∧ q.1 = bufferSubscript lbs q.2 := by
  unfold hostPairs
  rw [mem_map]
  constructor
  · rintro ⟨t, ht, rfl⟩
    rw [mem_overElements] at ht
    refine ⟨?_, ?_⟩
    · intro d
      have hd := ht d
      rw [ownExtent_eq, Bounds.size_eq] at hd
      show _ ≤ (m.bounds d).lbound + (t d - 1) ∧ (m.bounds d).lbound + (t d - 1) ≤ _
      omega
    · funext d
      show ownFirst (lbs d) (m.bounds d) + (t d - 1) = (m.bounds d).lbound + (t d - 1) - lbs d + 1
      unfold ownFirst
      ring
  · rintro ⟨hs, hq⟩
    refine ⟨fun d => q.2 d - (m.bounds d).lbound + 1, ?_, ?_⟩
    · rw [mem_overElements]
      intro d
      have hd := hs d
      rw [ownExtent_eq, Bounds.size_eq]
      omega
    · apply Prod.ext
      · rw [hq]
        funext d
        show ownFirst (lbs d) (m.bounds d) + (q.2 d - (m.bounds d).lbound + 1 - 1) = _
        unfold ownFirst bufferSubscript
        ring
      · funext d
        show (m.bounds d).lbound + (q.2 d - (m.bounds d).lbound + 1 - 1) = q.2 d
        ring

/-- **The device loop goes through the pairs of the host copy.** -/
theorem devicePairs_eq (lbs : Fin n → ℤ) (m : Member n α) :
    devicePairs lbs m = hostPairs lbs m := by
  unfold devicePairs hostPairs
  have hext : (fun d => ownExtent (lbs d) (m.bounds d)) = fun d => (m.bounds d).size := by
    funext d
    exact ownExtent_eq _ _
  rw [hext]
  apply map_congr_left
  intro t _
  apply Prod.ext
  · funext d
    show packOffset (lbs d) (m.bounds d) + t d = ownFirst (lbs d) (m.bounds d) + (t d - 1)
    unfold packOffset ownFirst
    ring
  · funext d
    show lbs d + packOffset (lbs d) (m.bounds d) + t d - 1 = (m.bounds d).lbound + (t d - 1)
    unfold packOffset
    ring

/-! ## Stores -/

section Stores

variable {ι : Type} [DecidableEq ι]

variable {cell : ι → α} {l : List (ι × α)}

/-- What no store names stays. -/
theorem store_of_not_mem {i : ι} (h : ∀ p ∈ l, p.1 ≠ i) :
    store cell l i = cell i := by
  induction l generalizing cell with
  | nil => rfl
  | cons p l ih =>
    show store (update cell p.1 p.2) l i = _
    rw [ih fun q hq => h q (mem_cons_of_mem _ hq),
      update_of_ne (h p (mem_cons_self ..)).symm]

/-- What is stored, where all stores to one place agree. -/
theorem store_of_mem {i : ι} {v : α} (h : (i, v) ∈ l)
    (hagree : ∀ p ∈ l, p.1 = i → p.2 = v) : store cell l i = v := by
  induction l generalizing cell with
  | nil => cases h
  | cons p l ih =>
    show store (update cell p.1 p.2) l i = v
    by_cases hmem : (i, v) ∈ l
    · exact ih hmem fun q hq => hagree q (mem_cons_of_mem _ hq)
    · rcases mem_cons.mp h with rfl | h
      · rw [store_of_not_mem]
        · exact update_self ..
        · intro q hq hqi
          have hv := hagree q (mem_cons_of_mem _ hq) hqi
          exact hmem (by rw [← hv, ← hqi]; exact hq)
      · exact absurd h hmem

end Stores

/-! ## Positions -/

/-- The subscripts are read off a position, in either order. -/
theorem bufferOrder_inj {e e' : Fin k → ℤ} {p p' : Fin n → ℤ}
    (h : bufferOrder membersFirst e p = bufferOrder membersFirst e' p') : e = e' ∧ p = p' := by
  unfold bufferOrder at h
  split_ifs at h
  · obtain ⟨hp, he⟩ := append_inj h (by rw [length_ofFn, length_ofFn])
    exact ⟨ofFn_injective he, ofFn_injective hp⟩
  · obtain ⟨he, hp⟩ := append_inj h (by rw [length_ofFn, length_ofFn])
    exact ⟨ofFn_injective he, ofFn_injective hp⟩

theorem bufferSubscript_inj {s' : Fin n → ℤ}
    (h : bufferSubscript lbs s = bufferSubscript lbs s') : s = s' := by
  funext d
  have hd := congrFun h d
  unfold bufferSubscript at hd
  omega

/-- What is stored at a position is the value of the element it stands for. -/
theorem mem_packStores {q : List ℤ × α} :
    q ∈ packStores hostPairs membersFirst r ↔ ∃ e m s, (e, m) ∈ r.presents ∧ m.InBounds s ∧
      q = (bufferOrder membersFirst e (bufferSubscript r.lbs s), m.value s) := by
  unfold packStores
  rw [mem_flatMap]
  constructor
  · rintro ⟨⟨e, m⟩, hp, hq⟩
    obtain ⟨⟨t, s⟩, hts, rfl⟩ := mem_map.mp hq
    obtain ⟨hs, ht⟩ := mem_hostPairs.mp hts
    refine ⟨e, m, s, hp, hs, ?_⟩
    rw [ht]
  · rintro ⟨e, m, s, hp, hs, rfl⟩
    exact ⟨(e, m), hp, mem_map.mpr ⟨(bufferSubscript r.lbs s, s),
      mem_hostPairs.mpr ⟨hs, rfl⟩, rfl⟩⟩

/-- A present member's values are where its subscripts say, whatever the buffer held. -/
theorem store_packStores (cell : List ℤ → α)
    (hp : (e, m) ∈ r.presents) (hs : m.InBounds s) :
    store cell (packStores hostPairs membersFirst r)
      (bufferOrder membersFirst e (bufferSubscript r.lbs s)) = m.value s := by
  apply store_of_mem
  · exact mem_packStores.mpr ⟨e, m, s, hp, hs, rfl⟩
  · intro q hq hpos
    obtain ⟨e', m', s', hp', hs', rfl⟩ := mem_packStores.mp hq
    obtain ⟨rfl, hsub⟩ := bufferOrder_inj hpos
    obtain rfl := bufferSubscript_inj hsub
    have hm := (mem_presents.mp hp').2.symm.trans (mem_presents.mp hp).2
    rw [Option.some.inj hm]

/-- **Unpacking one member**: its elements get what the buffer holds at their positions. -/
theorem unpackMember_value
    (s : Fin n → ℤ) :
    (m.InBounds s → (unpackMember hostPairs membersFirst lbs cell e m).value s =
        cell (bufferOrder membersFirst e (bufferSubscript lbs s))) ∧
      (¬m.InBounds s → (unpackMember hostPairs membersFirst lbs cell e m).value s = m.value s) := by
  have hmem : ∀ q : (Fin n → ℤ) × α, q ∈ (hostPairs lbs m).map
      (fun q => (q.2, cell (bufferOrder membersFirst e q.1))) →
        m.InBounds q.1 ∧ q.2 = cell (bufferOrder membersFirst e (bufferSubscript lbs q.1)) := by
    intro q hq
    obtain ⟨⟨t, s⟩, hts, rfl⟩ := mem_map.mp hq
    obtain ⟨hs, ht⟩ := mem_hostPairs.mp hts
    refine ⟨hs, ?_⟩
    rw [ht]
  constructor
  · intro hs
    apply store_of_mem
    · exact mem_map.mpr ⟨(bufferSubscript lbs s, s), mem_hostPairs.mpr ⟨hs, rfl⟩, rfl⟩
    · intro q hq hqs
      rw [(hmem q hq).2, hqs]
  · intro hs
    apply store_of_not_mem
    intro q hq hqs
    exact hs (hqs ▸ (hmem q hq).1)

theorem packOut_member
    (hp : (e, m) ∈ r.presents) :
    (packOut hostPairs membersFirst cell r).member e =
      some (unpackMember hostPairs membersFirst r.lbs cell e m) := by
  obtain ⟨he, hm⟩ := mem_presents.mp hp
  show (if e ∈ overElements r.extents then _ else _) = _
  rw [if_pos (mem_overElements.mpr he), hm]
  rfl

/-- **Pack-out after pack-in** changes nothing. -/
theorem packOut_packIn (membersFirst : Bool) (zero : α) (r : Records k n α) :
    packOut hostPairs membersFirst (packIn membersFirst zero r) r = r := by
  have hmember : (packOut hostPairs membersFirst (packIn membersFirst zero r) r).member =
      r.member := by
    funext e
    show (if e ∈ overElements r.extents then _ else _) = _
    split_ifs with he
    · rcases hm : r.member e with _ | m
      · rfl
      · have hp : (e, m) ∈ r.presents := mem_presents.mpr ⟨mem_overElements.mp he, hm⟩
        have hvalue : (unpackMember hostPairs membersFirst r.lbs (packIn membersFirst zero r) e
            m).value = m.value := by
          funext s
          by_cases hs : m.InBounds s
          · rw [(unpackMember_value s).1 hs]
            exact store_packStores _ hp hs
          · exact (unpackMember_value s).2 hs
        rw [Option.map_some]
        congr 1
        exact congrArg (Member.mk m.bounds) hvalue
    · rfl
  show ({ r with member := (packOut hostPairs membersFirst _ r).member } : Records k n α) = r
  rw [hmember]

/-! ## Layouts -/

/-- Storing under other names, one for each. -/
theorem store_map {ι κ : Type} [DecidableEq ι] [DecidableEq κ] {f : ι → κ}
    (hf : Injective f) (l : List (ι × α)) (cell : ι → α) (cell' : κ → α)
    (h : ∀ i, cell' (f i) = cell i) (i : ι) :
    store cell' (l.map fun p => (f p.1, p.2)) (f i) = store cell l i := by
  induction l generalizing cell cell' with
  | nil => exact h i
  | cons p l ih =>
    show store (update cell' (f p.1) p.2) _ (f i) =
      store (update cell p.1 p.2) l i
    apply ih
    intro j
    rw [update_apply, update_apply, h j]
    by_cases hj : j = p.1
    · rw [if_pos hj, if_pos (congrArg f hj)]
    · rw [if_neg hj, if_neg fun h => hj (hf h)]

/-- The stores of either layout are those of the pairs of subscripts. -/
theorem packStores_eq_map (membersFirst : Bool) (r : Records k n α) :
    packStores hostPairs membersFirst r =
      (r.presents.flatMap fun p => (hostPairs r.lbs p.2).map fun q => ((p.1, q.1),
        p.2.value q.2)).map
        fun q : ((Fin k → ℤ) × (Fin n → ℤ)) × α => (bufferOrder membersFirst q.1.1 q.1.2, q.2) := by
  unfold packStores
  rw [map_flatMap]
  simp only [map_map]
  rfl

theorem packIn_layouts (zero : α) (r : Records k n α) (e : Fin k → ℤ) (p : Fin n → ℤ) :
    packIn true zero r (bufferOrder true e p) = packIn false zero r (bufferOrder false e p) := by
  have hinj : ∀ membersFirst, Injective
      fun q : (Fin k → ℤ) × (Fin n → ℤ) => bufferOrder membersFirst q.1 q.2 := by
    intro membersFirst q q' h
    obtain ⟨he, hp⟩ := bufferOrder_inj h
    exact Prod.ext he hp
  unfold packIn
  rw [packStores_eq_map, packStores_eq_map]
  have hmap := fun membersFirst => store_map (hinj membersFirst)
    (r.presents.flatMap fun p => (hostPairs r.lbs p.2).map fun q => ((p.1, q.1), p.2.value q.2))
    (fun _ => zero) (fun _ => zero) (fun _ => rfl) (e, p)
  rw [hmap true, hmap false]

/-- The loop sets a stride for each dimension of the order, and no other. -/
theorem stridesLoop_spec (shape : List ℤ) (g : ℕ → ℤ) :
    ∀ (order : List ℕ) (s : (ℕ → ℤ) × ℤ), order.Nodup →
      (∀ d, d ∉ order → (stridesLoop shape order s).1 d = s.1 d) ∧
        (order.map fun d => (stridesLoop shape order s).1 d * (g d - 1)).sum =
          s.2 * columnMajor (order.map fun d => shape.getD d 0) (order.map g) := by
  intro order
  induction order with
  | nil =>
    intro s _
    refine ⟨fun _ _ => rfl, ?_⟩
    simp [columnMajor]
  | cons d order ih =>
    intro s hnodup
    rw [nodup_cons] at hnodup
    obtain ⟨hrest, hsum⟩ := ih (update s.1 d s.2, s.2 * shape.getD d 0) hnodup.2
    have hloop : stridesLoop shape (d :: order) s =
        stridesLoop shape order (update s.1 d s.2, s.2 * shape.getD d 0) := rfl
    rw [hloop]
    constructor
    · intro d' hd'
      rw [hrest d' fun h => hd' (mem_cons_of_mem _ h)]
      refine update_of_ne ?_ ..
      rintro rfl
      exact hd' (mem_cons_self ..)
    · have hd : (stridesLoop shape order (update s.1 d s.2, s.2 * shape.getD d 0)).1 d =
          s.2 := by
        rw [hrest d hnodup.1]
        exact update_self ..
      rw [map_cons, sum_cons, hsum, hd]
      simp only [map_cons, columnMajor]
      ring

/-- Reading the second part of a list by its numbers. -/
theorem map_getD_range' (a b : List ℤ) :
    (List.range' a.length b.length).map (fun d => (a ++ b).getD d 0) = b := by
  apply ext_getElem
  · simp
  · intro i hi hi'
    rw [getElem_map, getElem_range', getD_eq_getElem?_getD,
      List.getElem?_append_right (by omega)]
    simp [hi']

theorem map_getD_range (a b : List ℤ) :
    (List.range a.length).map (fun d => (a ++ b).getD d 0) = a := by
  apply ext_getElem
  · simp
  · intro i hi hi'
    rw [getElem_map, getElem_range, getD_eq_getElem?_getD,
      List.getElem?_append_left hi', List.getElem?_eq_getElem hi']
    rfl

/-- **The strides address the members-first array.** -/
theorem address_membersFirst {a a' b b' : List ℤ} (ha : a.length = a'.length)
    (hb : b.length = b'.length) :
    address (membersFirstStrides (a ++ b) a.length) (a' ++ b') =
      columnMajor (b ++ a) (b' ++ a') := by
  have hlen : (a' ++ b').length = a.length + b.length := by
    rw [length_append, ha, hb]
  have horder : membersFirstOrder a.length (a ++ b).length =
      List.range' a.length b.length ++ List.range a.length := by
    unfold membersFirstOrder
    rw [length_append, Nat.add_sub_cancel_left]
  have hperm : (List.range (a.length + b.length)).Perm
      (List.range' a.length b.length ++ List.range a.length) := by
    rw [range_add, List.range'_eq_map_range]
    exact perm_append_comm
  have hnodup := hperm.nodup_iff.mp nodup_range
  have hsum := (stridesLoop_spec (a ++ b) (fun d => (a' ++ b').getD d 0) _ (fun _ => 0, 1) hnodup).2
  have hmapb : (List.range' a.length b.length).map (fun d => (a' ++ b').getD d 0) = b' := by
    rw [ha, hb]
    exact map_getD_range' a' b'
  have hmapa : (List.range a.length).map (fun d => (a' ++ b').getD d 0) = a' := by
    rw [ha]
    exact map_getD_range a' b'
  unfold address membersFirstStrides
  rw [hlen, horder, (hperm.map _).sum_eq, hsum, one_mul, map_append, map_append,
    map_getD_range', map_getD_range, hmapb, hmapa]

/-! ## Packing -/

/-- **Pack-in and pack-out are inverse and aligned** on the host, in either layout. -/
theorem packing_alignedOnHost (zero : α) (r : Records k n α) : AlignedOnHost zero r where
  smallest := by
    intro e m hp hne d
    have h := lbs_spec r
    have htaken := h.taken.mpr ⟨(e, m), hp, hne⟩
    obtain ⟨⟨e', m'⟩, hp', hne', heq⟩ := h.attained htaken d
    exact ⟨h.le (e, m) hp hne d, e', m', hp', hne', heq⟩
  room := by
    intro e m hp
    refine ⟨(mem_presents.mp hp).1, ?_⟩
    intro s hs d
    have hne := Member.nonempty_of_inBounds hs
    have hlb : r.lbs d ≤ (m.bounds d).lbound := (lbs_spec r).le (e, m) hp hne d
    have hcap := caps_spec r (e, m) hp hne d
    have hd := hs d
    unfold bufferSubscript
    simp only at hcap
    omega
  distinct := by
    intro membersFirst e e' s s' h
    obtain ⟨he, hs⟩ := bufferOrder_inj h
    exact ⟨he, bufferSubscript_inj hs⟩
  lands := by
    intro membersFirst e m hp s hs
    exact store_packStores _ hp hs
  returns := by
    intro membersFirst cell e m hp
    refine ⟨_, packOut_member hp, rfl, ?_, ?_⟩
    · intro s hs
      exact (unpackMember_value s).1 hs
    · intro s hs
      exact (unpackMember_value s).2 hs
  absent := by
    intro membersFirst cell e he
    show (if e ∈ overElements r.extents then _ else _) = _
    rw [he]
    split_ifs <;> rfl
  inverse := fun membersFirst => packOut_packIn membersFirst zero r
  layouts := by
    intro e p
    refine ⟨packIn_layouts zero r e p, ?_⟩
    have hrecords : (List.ofFn fun d => (r.extents d : ℤ)).length = (List.ofFn e).length := by simp
    have hmembers : (List.ofFn r.caps).length = (List.ofFn p).length := by simp
    have h := address_membersFirst hrecords hmembers
    rw [List.length_ofFn] at h
    exact h

end RecordPacking
