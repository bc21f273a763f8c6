/-
# Images that are kept on the device

A kept image is packed again where its layout is the one of the records, so it has room
for them and holds in its padding what a new one would (`setUp_spec`).  A new one is
zeroed where some member does not fill its part; the slot of an absent member is part of
no member, and is left as the device hands it out (**`packing_aligned_iff`**).
-/
import DaceFortran.RecordPacking.PackRoundTrip

open List

namespace RecordPacking

open Function

variable {n k : ℕ} {α : Type}

variable {e : Fin k → ℤ} {m : Member n α} {r r' : Records k n α} {membersFirst : Bool}

variable {p : List ℤ} {zero : α} {memory : List ℤ → α}

/-! ## Positions -/

theorem mem_positions {extents : Fin k → ℕ} {caps : Fin n → ℤ} :
    p ∈ positions membersFirst extents caps ↔ ∃ (e : Fin k → ℤ) (q : Fin n → ℤ),
      (∀ d, 1 ≤ e d ∧ e d ≤ extents d) ∧ (∀ d, 1 ≤ q d ∧ q d ≤ caps d) ∧
        bufferOrder membersFirst e q = p := by
  simp only [positions, mem_flatMap, mem_map, mem_overElements]
  constructor
  · rintro ⟨e, he, q, hq, rfl⟩
    refine ⟨e, q, he, fun d => ?_, rfl⟩
    have hd := hq d
    omega
  · rintro ⟨e, q, he, hq, rfl⟩
    refine ⟨e, he, q, fun d => ?_, rfl⟩
    have hd := hq d
    omega

theorem mem_live :
    p ∈ r.live membersFirst ↔ ∃ e m s, (e, m) ∈ r.presents ∧ m.InBounds s ∧
      bufferOrder membersFirst e (bufferSubscript r.lbs s) = p := by
  rw [Records.live, mem_map]
  constructor
  · rintro ⟨q, hq, rfl⟩
    obtain ⟨e, m, s, hp, hs, rfl⟩ := mem_packStores.mp hq
    exact ⟨e, m, s, hp, hs, rfl⟩
  · rintro ⟨e, m, s, hp, hs, rfl⟩
    exact ⟨_, mem_packStores.mpr ⟨e, m, s, hp, hs, rfl⟩, rfl⟩

theorem devicePairs_eq_hostPairs : (devicePairs : Pairing n α) = hostPairs := by
  funext lbs m
  exact devicePairs_eq lbs m

theorem store_packStores_of_not_live {cell : List ℤ → α} (hp : p ∉ r.live membersFirst) :
    store cell (packStores hostPairs membersFirst r) p = cell p := by
  apply store_of_not_mem
  rintro q hq rfl
  exact hp (mem_map_of_mem hq)

/-- Packing stores the members and nothing else. -/
theorem store_packStores_congr {cell cell' : List ℤ → α}
    (h : p ∉ r.live membersFirst → cell p = cell' p) :
    store cell (packStores hostPairs membersFirst r) p =
      store cell' (packStores hostPairs membersFirst r) p := by
  by_cases hp : p ∈ r.live membersFirst
  · obtain ⟨e, m, s, hem, hs, rfl⟩ := mem_live.mp hp
    rw [store_packStores _ hem hs, store_packStores _ hem hs]
  · rw [store_packStores_of_not_live hp, store_packStores_of_not_live hp, h hp]

/-! ## Padding -/

theorem padded_iff : r.padded = true ↔ ∃ e m d, (e, m) ∈ r.presents ∧
    (((m.bounds d).size : ℤ) < r.caps d ∨ (m.bounds d).lbound ≠ r.lbs d) := by
  rw [Records.padded, any_eq_true]
  constructor
  · rintro ⟨⟨e, m⟩, hp, h⟩
    obtain ⟨d, hd⟩ := of_decide_eq_true h
    exact ⟨e, m, d, hp, hd⟩
  · rintro ⟨e, m, d, hp, hd⟩
    exact ⟨(e, m), hp, decide_eq_true ⟨d, hd⟩⟩

theorem one_le_caps (r : Records k n α) (d : Fin n) : 1 ≤ r.caps d := by
  have h := (takeCaps_spec r.lbs r.presents fun _ => 0).1 d
  unfold Records.caps
  split_ifs <;> omega

/-- **A buffer has padding where the members are uneven.** -/
theorem padded_iff_uneven : r.padded = true ↔ r.Uneven := by
  rw [padded_iff]
  constructor
  · rintro ⟨e, m, d, hp, hd⟩
    by_contra huneven
    have heven : ∀ p ∈ r.presents, ∀ q ∈ r.presents, ∀ d, (p.2.bounds d).size ≠ 0 ∧
        (p.2.bounds d).lbound = (q.2.bounds d).lbound ∧
        (p.2.bounds d).ubound = (q.2.bounds d).ubound := by
      intro p hp q hq d
      by_contra h
      exact huneven ⟨p, hp, q, hq, d, by tauto⟩
    have hne : m.nonempty = true := decide_eq_true fun d =>
      Nat.pos_of_ne_zero (heven _ hp _ hp d).1
    have hsize := (m.bounds d).size_eq
    -- the lower bound and the cap are those of members like this one
    obtain ⟨q, hq, -, hlow⟩ :=
      (lbs_spec r).attained ((lbs_spec r).taken.mpr ⟨_, hp, hne⟩) d
    have hlbs : (m.bounds d).lbound = r.lbs d := (heven _ hp _ hq d).2.1.trans hlow
    have hcap := (takeCaps_spec r.lbs r.presents fun _ => 0).2 _ hp hne d
    have hpos : 0 < (m.bounds d).size := Nat.pos_of_ne_zero (heven _ hp _ hp d).1
    have hcaps : r.caps d ≤ (m.bounds d).size := by
      simp only at hcap
      rcases takeCaps_attained r.lbs r.presents (fun _ => 0) d with h0 | ⟨q, hq, -, hreach⟩
      · omega
      · have hub := (heven _ hp _ hq d).2.2
        simp only at hub
        unfold Records.caps
        split_ifs <;> omega
    rcases hd with hd | hd
    · omega
    · exact hd hlbs
  · rintro ⟨⟨e, m⟩, hp, ⟨e', m'⟩, hq, d, h⟩
    by_contra hno
    have hfull : ∀ e m, (e, m) ∈ r.presents → ∀ d,
        r.caps d ≤ (m.bounds d).size ∧ (m.bounds d).lbound = r.lbs d := by
      intro e m hp d
      by_contra h
      exact hno ⟨e, m, d, hp, by rw [not_and_or, not_le] at h; exact h⟩
    have hubound : ∀ e m, (e, m) ∈ r.presents →
        (m.bounds d).ubound = r.lbs d + r.caps d - 1 := by
      intro e m hp
      have hne : m.nonempty = true := decide_eq_true fun d => by
        have hsize := (hfull e m hp d).1
        have hcap := one_le_caps r d
        omega
      have hreach := caps_spec r _ hp hne d
      have hsize := (m.bounds d).size_eq
      have hd := hfull e m hp d
      simp only at hreach
      omega
    have hcap := one_le_caps r d
    have hm := hfull e m hp d
    rcases h with h | h | h
    · simp only at h
      omega
    · exact h (hm.2.trans (hfull e' m' hq d).2.symm)
    · exact h ((hubound e m hp).trans (hubound e' m' hq).symm)

/-- Where every record has its member and all are alike, they fill the buffer. -/
theorem mem_live_of_full (hall : r.AllPresent) (hpad : r.padded ≠ true)
    (hp : p ∈ positions membersFirst r.extents r.caps) : p ∈ r.live membersFirst := by
  obtain ⟨e, q, he, hq, rfl⟩ := mem_positions.mp hp
  obtain ⟨m, hm⟩ := Option.isSome_iff_exists.mp (hall e (mem_overElements.mpr he))
  have hem : (e, m) ∈ r.presents := mem_presents.mpr ⟨he, hm⟩
  refine mem_live.mpr ⟨e, m, fun d => q d + r.lbs d - 1, hem, fun d => ?_, ?_⟩
  · have hfull : ¬ (((m.bounds d).size : ℤ) < r.caps d ∨ (m.bounds d).lbound ≠ r.lbs d) :=
      fun h => hpad (padded_iff.mpr ⟨e, m, d, hem, h⟩)
    have hsize := (m.bounds d).size_eq
    have hd := hq d
    show _ ≤ q d + r.lbs d - 1 ∧ q d + r.lbs d - 1 ≤ _
    omega
  · congr 1
    funext d
    unfold bufferSubscript
    ring

/-- The slot of an absent member is none of the positions the copies store to. -/
theorem not_mem_live_of_absent {q : Fin n → ℤ} (habsent : r.member e = none) :
    bufferOrder membersFirst e q ∉ r.live membersFirst := by
  intro h
  obtain ⟨e', m, s, hem, -, hpos⟩ := mem_live.mp h
  obtain ⟨rfl, -⟩ := bufferOrder_inj hpos
  rw [(mem_presents.mp hem).2] at habsent
  cases habsent

/-! ## Layouts -/

/-- The bounds that a layout holds of a member. -/
def Member.spans (m : Member n α) (d : Fin n) : ℤ × ℤ := ((m.bounds d).lbound, (m.bounds d).ubound)

/-- Two arrays of records with members of the same bounds in the same records. -/
structure SameLayout (r r' : Records k n α) : Prop where
  extents : r.extents = r'.extents
  caps : r.caps = r'.caps
  lbs : r.lbs = r'.lbs
  spans : ∀ e ∈ overElements r.extents,
    (r.member e).map Member.spans = (r'.member e).map Member.spans

/-- Parts of equal lengths are read off the whole. -/
theorem eq_of_flatMap_eq {ι β : Type} {f g : ι → List β} {l : List ι}
    (hlen : ∀ i ∈ l, (f i).length = (g i).length) (h : l.flatMap f = l.flatMap g) :
    ∀ i ∈ l, f i = g i := by
  induction l with
  | nil => simp
  | cons a l ih =>
    rw [flatMap_cons, flatMap_cons] at h
    obtain ⟨ha, hl⟩ := append_inj h (hlen a mem_cons_self)
    intro i hi
    rcases mem_cons.mp hi with rfl | hi
    · exact ha
    · exact ih (fun j hj => hlen j (mem_cons_of_mem _ hj)) hl i hi

/-- What the layout holds of one record. -/
def Records.layoutOf (r : Records k n α) (e : Fin k → ℤ) : List ℤ :=
  match r.member e with
  | none => List.replicate (1 + 2 * n) 0
  | some m => 1 :: (List.ofFn fun d => [(m.bounds d).lbound, (m.bounds d).ubound]).flatten

theorem length_layoutOf (r : Records k n α) (e : Fin k → ℤ) :
    (r.layoutOf e).length = 1 + 2 * n := by
  unfold Records.layoutOf
  split
  · rw [length_replicate]
  · simp only [length_cons, length_flatten, map_ofFn]
    have htwo : (length ∘ fun d => [((‹Member n α›).bounds d).lbound,
        ((‹Member n α›).bounds d).ubound]) = fun _ => 2 := rfl
    rw [htwo, ofFn_const, sum_replicate_nat]
    ring

theorem spans_of_layoutOf (h : r.layoutOf e = r'.layoutOf e) :
    (r.member e).map Member.spans = (r'.member e).map Member.spans := by
  unfold Records.layoutOf at h
  cases hm : r.member e with
  | none =>
    cases hm' : r'.member e with
    | none => rfl
    | some m' =>
      rw [hm, hm', Nat.add_comm, List.replicate_succ] at h
      exact absurd (List.cons.inj h).1 (by decide)
  | some m =>
    cases hm' : r'.member e with
    | none =>
      rw [hm, hm', Nat.add_comm, List.replicate_succ] at h
      exact absurd (List.cons.inj h).1 (by decide)
    | some m' =>
      rw [hm, hm'] at h
      have hflat := (List.cons.inj h).2
      rw [ofFn_eq_map, ofFn_eq_map, ← flatMap_def, ← flatMap_def] at hflat
      have hpair := eq_of_flatMap_eq (f := fun d => [(m.bounds d).lbound, (m.bounds d).ubound])
        (g := fun d => [(m'.bounds d).lbound, (m'.bounds d).ubound]) (fun _ _ => rfl) hflat
      refine congrArg some (funext fun d => ?_)
      have hd := hpair d (mem_finRange d)
      simp only [cons.injEq, and_true] at hd
      exact Prod.ext hd.1 hd.2

/-- **A layout says all that the setup depends on.** -/
theorem sameLayout_of_layout (h : r.layout = r'.layout) : SameLayout r r' := by
  have hparts : ∀ r : Records k n α, r.layout = List.ofFn (fun d => (r.extents d : ℤ)) ++
      (List.ofFn r.caps ++ (List.ofFn r.lbs ++ (overElements r.extents).flatMap r.layoutOf)) := by
    intro r
    unfold Records.layout
    rw [append_assoc, append_assoc]
    rfl
  rw [hparts r, hparts r'] at h
  obtain ⟨hext, h⟩ := append_inj h (by rw [length_ofFn, length_ofFn])
  obtain ⟨hcaps, h⟩ := append_inj h (by rw [length_ofFn, length_ofFn])
  obtain ⟨hlbs, h⟩ := append_inj h (by rw [length_ofFn, length_ofFn])
  have hextents : r.extents = r'.extents := by
    funext d
    exact Int.ofNat.inj (congrFun (ofFn_injective hext) d)
  rw [← hextents] at h
  refine ⟨hextents, ofFn_injective hcaps, ofFn_injective hlbs, fun e he => ?_⟩
  refine spans_of_layoutOf (eq_of_flatMap_eq (fun e _ => ?_) h e he)
  rw [length_layoutOf, length_layoutOf]

namespace SameLayout

theorem symm (h : SameLayout r r') : SameLayout r' r :=
  ⟨h.extents.symm, h.caps.symm, h.lbs.symm, fun e he => (h.spans e (h.extents ▸ he)).symm⟩

theorem present (h : SameLayout r r') (hem : (e, m) ∈ r.presents) :
    ∃ m', (e, m') ∈ r'.presents ∧ m'.spans = m.spans := by
  obtain ⟨he, hm⟩ := mem_presents.mp hem
  have hspans := h.spans e (mem_overElements.mpr he)
  rw [hm, Option.map_some] at hspans
  obtain ⟨m', hm', heq⟩ := Option.map_eq_some_iff.mp hspans.symm
  exact ⟨m', mem_presents.mpr ⟨h.extents ▸ he, hm'⟩, heq⟩

theorem live_subset (h : SameLayout r r') (hp : p ∈ r.live membersFirst) :
    p ∈ r'.live membersFirst := by
  obtain ⟨e, m, s, hem, hs, rfl⟩ := mem_live.mp hp
  obtain ⟨m', hem', hspans⟩ := h.present hem
  refine mem_live.mpr ⟨e, m', s, hem', fun d => ?_, by rw [h.lbs]⟩
  have hd := Prod.mk.inj (congrFun hspans d)
  rw [hd.1, hd.2]
  exact hs d

theorem padded_of (h : SameLayout r r') (hp : r.padded = true) : r'.padded = true := by
  obtain ⟨e, m, d, hem, hd⟩ := padded_iff.mp hp
  obtain ⟨m', hem', hspans⟩ := h.present hem
  have hbounds := Prod.mk.inj (congrFun hspans d)
  refine padded_iff.mpr ⟨e, m', d, hem', ?_⟩
  have hsize := (m.bounds d).size_eq
  have hsize' := (m'.bounds d).size_eq
  rw [hbounds.1, ← h.lbs, ← h.caps]
  rw [hbounds.1, hbounds.2] at hsize'
  rwa [hsize', ← hsize]

theorem newCell_eq (h : SameLayout r r') : newCell zero memory r = newCell zero memory r' := by
  have hpadded : r.padded = r'.padded :=
    Bool.eq_iff_iff.mpr ⟨h.padded_of, h.symm.padded_of⟩
  unfold newCell
  rw [hpadded]

end SameLayout

/-! ## Kept images -/

/-- An image that is set up for an array of records: it has its room, and outside of the members
it holds what a new one does. -/
structure SetUpFor (membersFirst : Bool) (zero : α) (image : DeviceImage k n α)
    (r : Records k n α) : Prop where
  extents : image.extents = r.extents
  caps : image.caps = r.caps
  layout : image.layout = r.layout
  padding : ∃ memory, ∀ p, p ∉ r.live membersFirst → image.cell p = newCell zero memory r p

theorem SetUpFor.of_layout {image : DeviceImage k n α} (h : SetUpFor membersFirst zero image r')
    (hlayout : image.layout = r.layout) : SetUpFor membersFirst zero image r := by
  have hsame : SameLayout r r' := sameLayout_of_layout (hlayout.symm.trans h.layout)
  obtain ⟨memory, hcell⟩ := h.padding
  refine ⟨h.extents.trans hsame.extents.symm, h.caps.trans hsame.caps.symm, hlayout,
    memory, fun p hp => ?_⟩
  rw [hcell p fun hp' => hp (hsame.symm.live_subset hp'), hsame.newCell_eq]

theorem setUp_of {kept : Option (DeviceImage k n α)}
    (hkept : ∀ image, kept = some image → ∃ r, SetUpFor membersFirst zero image r)
    (memory : List ℤ → α) (r : Records k n α) :
    SetUpFor membersFirst zero (setUp zero memory kept r) r := by
  have hnew : SetUpFor membersFirst zero
      ⟨r.extents, r.caps, newCell zero memory r, r.layout⟩ r :=
    ⟨rfl, rfl, rfl, memory, fun _ _ => rfl⟩
  unfold setUp
  cases kept with
  | none => exact hnew
  | some image =>
    obtain ⟨r', hr'⟩ := hkept image rfl
    simp only
    split_ifs with hlayout
    · exact hr'.of_layout hlayout
    · exact hnew

/-- What a call writes to an image does not touch its padding. -/
theorem SetUpFor.packed {image : DeviceImage k n α} (h : SetUpFor membersFirst zero image r)
    {cell : List ℤ → α} (hcell : ∀ p, p ∉ r.live membersFirst →
      cell p = store image.cell (packStores devicePairs membersFirst r) p) :
    SetUpFor membersFirst zero { image with cell := cell } r := by
  obtain ⟨memory, hpadding⟩ := h.padding
  refine ⟨h.extents, h.caps, h.layout, memory, fun p hp => ?_⟩
  show cell p = _
  rw [hcell p hp, devicePairs_eq_hostPairs, store_packStores_of_not_live hp, hpadding p hp]

theorem Kept.setUpFor {kept : Option (DeviceImage k n α)} (h : Kept membersFirst zero kept) :
    ∀ image, kept = some image → ∃ r, SetUpFor membersFirst zero image r := by
  induction h with
  | none =>
    intro image himage
    cases himage
  | call _ memory r cell hcell ih =>
    intro image himage
    obtain rfl := Option.some.inj himage
    exact ⟨r, (setUp_of ih memory r).packed hcell⟩

/-- **Whatever the calls before have left, the image is set up for the records.** -/
theorem setUp_spec {kept : Option (DeviceImage k n α)} (h : Kept membersFirst zero kept)
    (memory : List ℤ → α) (r : Records k n α) :
    SetUpFor membersFirst zero (setUp zero memory kept r) r :=
  setUp_of h.setUpFor memory r

/-- **A device image holds what the host's buffer holds**, where every slot is filled or zeroed. -/
theorem packInDevice_eq {kept : Option (DeviceImage k n α)} (h : Kept membersFirst zero kept)
    (hfilled : r.AllPresent ∨ r.Uneven) (hp : p ∈ positions membersFirst r.extents r.caps) :
    (packInDevice membersFirst zero memory kept r).cell p = packIn membersFirst zero r p := by
  show store _ _ p = store _ _ p
  rw [devicePairs_eq_hostPairs]
  refine store_packStores_congr fun hlive => ?_
  obtain ⟨memory', hpadding⟩ := (setUp_spec h memory r).padding
  have hpadded : r.padded = true := by
    by_contra hno
    rcases hfilled with hall | huneven
    · exact hlive (mem_live_of_full hall hno hp)
    · exact hno (padded_iff_uneven.mpr huneven)
  rw [hpadding p hlive, newCell, if_pos hpadded]

/-- A slot of an absent record in a buffer without padding is what the device hands out. -/
theorem packInDevice_of_absent {q : Fin n → ℤ} (habsent : r.member e = none) (heven : ¬ r.Uneven) :
    (packInDevice membersFirst zero memory none r).cell (bufferOrder membersFirst e q) =
        memory (bufferOrder membersFirst e q) ∧
      packIn membersFirst zero r (bufferOrder membersFirst e q) = zero := by
  have hlive : bufferOrder membersFirst e q ∉ r.live membersFirst :=
    not_mem_live_of_absent habsent
  constructor
  · show store _ (packStores devicePairs membersFirst r) _ = _
    rw [devicePairs_eq_hostPairs, store_packStores_of_not_live hlive]
    show newCell zero memory r _ = _
    rw [newCell, if_neg fun h => heven (padded_iff_uneven.mp h)]
  · exact store_packStores_of_not_live hlive

/-- Packing is aligned exactly where every record has its member or the members differ, so that
the code zeroes the buffer. -/
theorem packing_aligned_iff [Nontrivial α] (zero : α) (r : Records k n α) :
    Aligned zero r ↔ r.AllPresent ∨ r.Uneven := by
  constructor
  · intro h
    by_contra hno
    rw [not_or, Records.AllPresent] at hno
    push Not at hno
    obtain ⟨⟨e, he, habsent⟩, heven⟩ := hno
    obtain ⟨other, hother⟩ := exists_ne zero
    have habsent : r.member e = none := by simpa using habsent
    have hp : bufferOrder true e (fun _ => 1) ∈ positions true r.extents r.caps :=
      mem_positions.mpr ⟨e, _, mem_overElements.mp he, fun d => ⟨le_rfl, one_le_caps r d⟩, rfl⟩
    have hsame := (h.device true (fun _ => other) none .none).2.2.1 _ hp
    have hpacked : (packInDevice true zero (fun _ => other) none r).cell
          (bufferOrder true e fun _ => 1) = other ∧
        packIn true zero r (bufferOrder true e fun _ => 1) = zero :=
      packInDevice_of_absent habsent heven
    exact hother (hpacked.1.symm.trans (hsame.trans hpacked.2))
  · intro hfilled
    refine ⟨packing_alignedOnHost zero r, fun membersFirst memory kept h => ?_⟩
    have hsetUp := setUp_spec h memory r
    refine ⟨hsetUp.extents, hsetUp.caps, fun p hp => packInDevice_eq h hfilled hp, fun cell => ?_⟩
    rw [devicePairs_eq_hostPairs]

/-- Boundary planes of different directions: `0:2`, no member, `1:4`. -/
def planes : Records 1 1 ℤ where
  extents := fun _ => 3
  member := fun e =>
    if e 0 = 1 then some ⟨fun _ => ⟨0, 2⟩, fun s => s 0⟩
    else if e 0 = 3 then some ⟨fun _ => ⟨1, 4⟩, fun s => 10 * s 0⟩
    else none

theorem planes_aligned : Aligned 0 planes :=
  (packing_aligned_iff 0 planes).2 (by decide)

/-- Two records, the second without a member. -/
def halfPresent : Records 1 1 ℤ where
  extents := fun _ => 2
  member := fun e => if e 0 = 1 then some ⟨fun _ => ⟨1, 2⟩, fun s => s 0⟩ else none

/-- The slot of the absent member is 0 on the host and unset on the device. -/
theorem halfPresent_not_aligned : ¬ Aligned 0 halfPresent := by
  intro h
  have hp : [1, 2] ∈ positions true halfPresent.extents halfPresent.caps := by decide
  have hsame := (h.device true (fun _ => 7) none .none).2.2.1 _ hp
  exact absurd hsame (by decide)

/-! ## Runs of calls -/

/-- A call: what the program did to the records before it, the memory that the device hands out,
and the values the kernel computes for the elements of the members from the buffer it is given. -/
structure Call (k n : ℕ) (α : Type) where
  before : Records k n α → Records k n α
  memory : List ℤ → α
  kernel : (List ℤ → Option α) → List ℤ → α

/-- What a kernel finds in a buffer: no more than it was allocated with. -/
def contents (membersFirst : Bool) (extents : Fin k → ℕ) (caps : Fin n → ℤ) (cell : List ℤ → α)
    (p : List ℤ) : Option α :=
  if p ∈ positions membersFirst extents caps then some (cell p) else none

/-- The buffer after the kernel. -/
def Call.run (c : Call k n α) (membersFirst : Bool) (r : Records k n α) (extents : Fin k → ℕ)
    (caps : Fin n → ℤ) (cell : List ℤ → α) : List ℤ → α :=
  fun p => if p ∈ r.live membersFirst then
    c.kernel (contents membersFirst extents caps cell) p else cell p

/-- A call on the host. -/
def Call.onHost (membersFirst : Bool) (zero : α) (r : Records k n α) (c : Call k n α) :
    Records k n α :=
  let now := c.before r
  packOut hostPairs membersFirst
    (c.run membersFirst now now.extents now.caps (packIn membersFirst zero now)) now

/-- A call on the device, with the image that is kept from the calls before it. -/
def Call.onDevice (membersFirst : Bool) (zero : α)
    (s : Option (DeviceImage k n α) × Records k n α) (c : Call k n α) :
    Option (DeviceImage k n α) × Records k n α :=
  let now := c.before s.2
  let image := packInDevice membersFirst zero c.memory s.1 now
  let cell := c.run membersFirst now image.extents image.caps image.cell
  (some { image with cell := cell }, packOut devicePairs membersFirst cell now)

/-- At every call of the host version each record has its member or the members differ. -/
def FilledCalls (membersFirst : Bool) (zero : α) : List (Call k n α) → Records k n α → Prop
  | [], _ => True
  | c :: calls, r =>
    ((c.before r).AllPresent ∨ (c.before r).Uneven) ∧
      FilledCalls membersFirst zero calls (c.onHost membersFirst zero r)

theorem packOut_congr {cell cell' : List ℤ → α}
    (h : ∀ p ∈ r.live membersFirst, cell p = cell' p) :
    packOut hostPairs membersFirst cell r = packOut hostPairs membersFirst cell' r := by
  unfold packOut
  congr 1
  funext e
  split_ifs with he
  · cases hm : r.member e with
    | none => rfl
    | some m =>
      have hem : (e, m) ∈ r.presents := mem_presents.mpr ⟨mem_overElements.mp he, hm⟩
      refine congrArg some (congrArg (Member.mk m.bounds) (funext fun s => ?_))
      by_cases hs : m.InBounds s
      · refine ((unpackMember_value s).1 hs).trans (Eq.trans ?_ ((unpackMember_value s).1 hs).symm)
        exact h _ (mem_live.mpr ⟨e, m, s, hem, hs, rfl⟩)
      · exact ((unpackMember_value s).2 hs).trans ((unpackMember_value s).2 hs).symm
  · rfl

variable {kept : Option (DeviceImage k n α)} {c : Call k n α}

/-- A call on the device leaves the records of a call on the host. -/
theorem Call.onDevice_eq (h : Kept membersFirst zero kept)
    (hfilled : (c.before r).AllPresent ∨ (c.before r).Uneven) :
    (c.onDevice membersFirst zero (kept, r)).2 = c.onHost membersFirst zero r := by
  have hsetUp := setUp_spec h c.memory (c.before r)
  show packOut devicePairs _ _ _ = packOut hostPairs _ _ _
  rw [devicePairs_eq_hostPairs]
  refine packOut_congr fun p hp => ?_
  have hcontents : contents membersFirst (c.before r).extents (c.before r).caps
        (packInDevice membersFirst zero c.memory kept (c.before r)).cell =
      contents membersFirst (c.before r).extents (c.before r).caps
        (packIn membersFirst zero (c.before r)) := by
    funext p
    unfold contents
    split_ifs with hp
    · rw [packInDevice_eq h hfilled hp]
    · rfl
  have hextents : (packInDevice membersFirst zero c.memory kept (c.before r)).extents =
    (c.before r).extents := hsetUp.extents
  have hcaps : (packInDevice membersFirst zero c.memory kept (c.before r)).caps =
    (c.before r).caps := hsetUp.caps
  show Call.run _ _ _ _ _ _ p = Call.run _ _ _ _ _ _ p
  rw [Call.run, Call.run, if_pos hp, if_pos hp, hextents, hcaps, hcontents]

/-- The image a call leaves is a kept one. -/
theorem Kept.onDevice (h : Kept membersFirst zero kept) :
    Kept membersFirst zero (c.onDevice membersFirst zero (kept, r)).1 :=
  .call h c.memory (c.before r) _ fun _ hp => if_neg hp

/-- **Kept images do not show**: after any number of calls whose buffers are filled or zeroed, the
records of the device version are those of the host version. -/
theorem onDevice_run (calls : List (Call k n α)) (h : Kept membersFirst zero kept)
    (hfilled : FilledCalls membersFirst zero calls r) :
    (calls.foldl (Call.onDevice membersFirst zero) (kept, r)).2 =
      calls.foldl (Call.onHost membersFirst zero) r := by
  induction calls generalizing kept r with
  | nil => rfl
  | cons c calls ih =>
    have hfirst : c.onDevice membersFirst zero (kept, r) =
        ((c.onDevice membersFirst zero (kept, r)).1, c.onHost membersFirst zero r) := by
      rw [← Call.onDevice_eq h hfilled.1]
    rw [List.foldl_cons, List.foldl_cons, hfirst]
    exact ih h.onDevice hfilled.2

/-- A kernel that adds what it finds in front of an element, where there is something. -/
def sweepCall (before : Records 1 1 ℤ → Records 1 1 ℤ) : Call 1 1 ℤ where
  before := before
  memory := fun _ => 7
  kernel := fun buffer p => match p with
    | [s, e] => (buffer [s, e]).getD 0 + (buffer [s - 1, e]).getD 0
    | _ => 0

/-- Two calls with one layout, so that the second one packs the kept image. -/
theorem onDevice_run_planes :
    ([sweepCall id, sweepCall id].foldl (Call.onDevice true 0) (none, planes)).2 =
      [sweepCall id, sweepCall id].foldl (Call.onHost true 0) planes :=
  onDevice_run _ .none ⟨by decide, by decide, trivial⟩

end RecordPacking
