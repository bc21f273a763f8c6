/-
# The partition of the `ALLOCATE` sites

The map by roots holds the classes of the forest (`gathered_gather`), so two
sites are in one group exactly when they are connected by the ends of `IF`s where
every loop runs once (`groupAllocSites_meet`).  This is the partition by live
buffers exactly when the accesses connect the same sites
(**`groupAllocSites_partitions_iff`**).
-/
import DaceFortran.AllocSites.GroupAllocSites

open UnionFind List

namespace AllocSites

variable {declName : String} {b : Body}

/-! ## The map by roots -/

/-- The map holds the classes of the numbers below `k`. -/
structure Gathered (F : Forest ℕ) (k : ℕ) (m : List (ℕ × List ℕ)) : Prop where
  keys : (m.map Prod.fst).Pairwise (· < ·)
  members : ∀ p ∈ m, p.2 = (List.range k).filter (fun i => F.root i = p.1) ∧ p.2 ≠ []
  covers : ∀ i < k, F.root i ∈ m.map Prod.fst

theorem mem_keys_pushByRoot (r i r' : ℕ) (m : List (ℕ × List ℕ)) :
    r' ∈ (pushByRoot r i m).map Prod.fst ↔ r' = r ∨ r' ∈ m.map Prod.fst := by
  induction m with
  | nil => simp [pushByRoot]
  | cons p m ih =>
    obtain ⟨s, l⟩ := p
    unfold pushByRoot
    split_ifs with h h'
    · subst h
      simp
    · simp
    · rw [map_cons, mem_cons, ih, map_cons, mem_cons]
      tauto

variable {m : List (ℕ × List ℕ)} {F : Forest ℕ}

variable {r i n op x y : ℕ} {groups : List (List ℕ)} {sites : List ℕ}

theorem keys_pushByRoot
    (h : (m.map Prod.fst).Pairwise (· < ·)) :
    ((pushByRoot r i m).map Prod.fst).Pairwise (· < ·) := by
  induction m with
  | nil => simp [pushByRoot]
  | cons p m ih =>
    obtain ⟨s, l⟩ := p
    rw [map_cons, pairwise_cons] at h
    unfold pushByRoot
    split_ifs with hr hlt
    · rw [map_cons, pairwise_cons]
      exact h
    · rw [map_cons, pairwise_cons, map_cons, pairwise_cons]
      refine ⟨?_, h⟩
      intro r' hr'
      rcases mem_cons.mp hr' with rfl | hr'
      · exact hlt
      · exact hlt.trans (h.1 r' hr')
    · rw [map_cons, pairwise_cons]
      refine ⟨?_, ih h.2⟩
      intro r' hr'
      rcases (mem_keys_pushByRoot r i r' m).mp hr' with rfl | hr'
      · show s < r'
        omega
      · exact h.1 r' hr'

/-- What is in the map after a `push_back`. -/
theorem mem_pushByRoot (h : (m.map Prod.fst).Pairwise (· < ·))
    {p : ℕ × List ℕ} (hp : p ∈ pushByRoot r i m) :
    p ∈ m ∧ p.1 ≠ r ∨ p.1 = r ∧ ((∃ l, (r, l) ∈ m ∧ p.2 = l ++ [i]) ∨
      r ∉ m.map Prod.fst ∧ p.2 = [i]) := by
  induction m with
  | nil =>
    obtain rfl := mem_singleton.mp hp
    exact Or.inr ⟨rfl, Or.inr ⟨not_mem_nil, rfl⟩⟩
  | cons q m ih =>
    obtain ⟨s, l⟩ := q
    rw [map_cons, pairwise_cons] at h
    unfold pushByRoot at hp
    split_ifs at hp with hr hlt
    · subst hr
      rcases mem_cons.mp hp with rfl | hp
      · exact Or.inr ⟨rfl, Or.inl ⟨l, mem_cons_self .., rfl⟩⟩
      · have hkey := h.1 p.1 (mem_map.mpr ⟨p, hp, rfl⟩)
        exact Or.inl ⟨mem_cons_of_mem _ hp, Nat.ne_of_gt hkey⟩
    · have hnot : r ∉ ((s, l) :: m).map Prod.fst := by
        intro hmem
        rcases mem_cons.mp hmem with hmem | hmem
        · exact hr hmem
        · have hkey := h.1 r hmem
          simp only at hkey
          omega
      rcases mem_cons.mp hp with rfl | hp
      · exact Or.inr ⟨rfl, Or.inr ⟨hnot, rfl⟩⟩
      · refine Or.inl ⟨hp, ?_⟩
        intro hpr
        exact hnot (mem_map.mpr ⟨p, hp, hpr⟩)
    · rcases mem_cons.mp hp with rfl | hp
      · exact Or.inl ⟨mem_cons_self .., fun h => hr h.symm⟩
      · rcases ih h.2 hp with ⟨hm, hne⟩ | ⟨hpr, ⟨l', hl', hpl⟩ | ⟨hnot, hpl⟩⟩
        · exact Or.inl ⟨mem_cons_of_mem _ hm, hne⟩
        · exact Or.inr ⟨hpr, Or.inl ⟨l', mem_cons_of_mem _ hl', hpl⟩⟩
        · refine Or.inr ⟨hpr, Or.inr ⟨?_, hpl⟩⟩
          intro hmem
          rcases mem_cons.mp hmem with hmem | hmem
          · exact hr hmem
          · exact hnot hmem

/-- One more site. -/
theorem Gathered.push {k : ℕ} (h : Gathered F k m) :
    Gathered F (k + 1) (pushByRoot (F.root k) k m) := by
  refine ⟨keys_pushByRoot h.keys, ?_, ?_⟩
  · intro p hp
    rw [range_succ, filter_append]
    rcases mem_pushByRoot h.keys hp with ⟨hm, hne⟩ | ⟨hr, ⟨l, hl, hpl⟩ | ⟨hnot, hpl⟩⟩
    · have hlast : List.filter (fun i => decide (F.root i = p.1)) [k] = [] :=
        filter_cons_of_neg (by simpa using hne.symm)
      rw [hlast, append_nil]
      exact h.members p hm
    · have hlast : List.filter (fun i => decide (F.root i = p.1)) [k] = [k] :=
        filter_cons_of_pos (by simpa using hr.symm)
      have hfirst : l = List.filter (fun i => decide (F.root i = F.root k)) (List.range k) :=
        (h.members _ hl).1
      rw [hlast, hpl, hr, ← hfirst]
      exact ⟨rfl, by simp⟩
    · have hlast : List.filter (fun i => decide (F.root i = p.1)) [k] = [k] :=
        filter_cons_of_pos (by simpa using hr.symm)
      have hfirst : List.filter (fun i => decide (F.root i = p.1)) (List.range k) = [] := by
        rw [filter_eq_nil_iff]
        intro i hi hroot
        apply hnot
        rw [← hr, ← of_decide_eq_true hroot]
        exact h.covers i (mem_range.mp hi)
      rw [hlast, hfirst, hpl]
      exact ⟨rfl, by simp⟩
  · intro i hi
    rw [mem_keys_pushByRoot]
    rcases Nat.lt_succ_iff_lt_or_eq.mp hi with hi | rfl
    · exact Or.inr (h.covers i hi)
    · exact Or.inl rfl

/-- **The map holds the classes of the forest.** -/
theorem gathered_gather (n : ℕ) (F : Forest ℕ) : Gathered F n (gather n F).1 := by
  have h : Gathered F n (gather n F).1 ∧ (gather n F).2.root = F.root := by
    unfold gather
    induction n with
    | zero =>
      refine ⟨⟨List.Pairwise.nil, fun p hp => absurd hp not_mem_nil, ?_⟩, rfl⟩
      intro i hi
      exact absurd hi (Nat.not_lt_zero i)
    | succ n ih =>
      rw [range_succ, foldl_append]
      simp only [foldl_cons, foldl_nil]
      rw [Forest.find_fst, ih.2, Forest.root_find, ih.2]
      exact ⟨ih.1.push, rfl⟩
  exact h.1

/-! ## The groups -/

/-- The classes of the forest below `n`, in the order of their first members. -/
structure Classes (F : Forest ℕ) (n : ℕ) (groups : List (List ℕ)) : Prop where
  perm : groups.flatten.Perm (List.range n)
  members : ∀ g ∈ groups, g ≠ [] ∧ ∃ r, g = (List.range n).filter fun i => F.root i = r
  ordered : groups.Pairwise fun g h => ∀ x ∈ g.head?, ∀ y ∈ h.head?, x < y

/-- The values of the map are the classes, in some order. -/
theorem perm_of_gathered (h : Gathered F n m) :
    (m.map Prod.snd).flatten.Perm (List.range n) := by
  rw [perm_ext_iff_of_nodup _ nodup_range]
  · intro i
    rw [mem_flatten, mem_range]
    constructor
    · rintro ⟨g, hg, hi⟩
      obtain ⟨p, hp, rfl⟩ := mem_map.mp hg
      rw [(h.members p hp).1] at hi
      exact mem_range.mp (mem_filter.mp hi).1
    · intro hi
      obtain ⟨p, hp, hpr⟩ := mem_map.mp (h.covers i hi)
      refine ⟨p.2, mem_map.mpr ⟨p, hp, rfl⟩, ?_⟩
      rw [(h.members p hp).1]
      exact mem_filter.mpr ⟨mem_range.mpr hi, decide_eq_true hpr.symm⟩
  · rw [nodup_flatten]
    constructor
    · intro g hg
      obtain ⟨p, hp, rfl⟩ := mem_map.mp hg
      rw [(h.members p hp).1]
      exact nodup_range.filter _
    · rw [pairwise_map]
      refine (pairwise_map.mp h.keys).imp_of_mem ?_
      intro p q hp hq hlt i hip hiq
      rw [(h.members p hp).1, mem_filter] at hip
      rw [(h.members q hq).1, mem_filter] at hiq
      have hpr := of_decide_eq_true hip.2
      have hqr := of_decide_eq_true hiq.2
      omega

/-- Sorting the classes by their first members. -/
theorem classes_insertionSort
    (h : Gathered F n m) :
    Classes F n ((m.map Prod.snd).insertionSort fun g h => byFront g h) := by
  have hperm := perm_insertionSort (fun g h => byFront g h = true) (m.map Prod.snd)
  have hmem : ∀ g ∈ (m.map Prod.snd).insertionSort fun g h => byFront g h,
      g ≠ [] ∧ ∃ r, g = (List.range n).filter fun i => F.root i = r := by
    intro g hg
    obtain ⟨p, hp, rfl⟩ := mem_map.mp (hperm.subset hg)
    exact ⟨(h.members p hp).2, p.1, (h.members p hp).1⟩
  have hflat := hperm.flatten.trans (perm_of_gathered h)
  refine ⟨hflat, hmem, ?_⟩
  have htotal : Std.Total fun g h : List ℕ => byFront g h = true :=
    ⟨fun g h => by simpa [byFront] using Nat.le_total _ _⟩
  have htrans : IsTrans (List ℕ) fun g h => byFront g h = true :=
    ⟨fun g h k hgh hhk => by
      simp only [byFront, decide_eq_true_eq] at hgh hhk ⊢
      exact hgh.trans hhk⟩
  have hsorted := pairwise_insertionSort (fun g h => byFront g h = true) (m.map Prod.snd)
  have hdisj := (nodup_flatten.mp (hflat.nodup_iff.mpr nodup_range)).2
  refine (hsorted.and hdisj).imp ?_
  rintro g k ⟨hle, hd⟩ x hx y hy
  have hle' : x ≤ y := by
    unfold byFront at hle
    rw [headD_eq_head?_getD, headD_eq_head?_getD, hx, hy] at hle
    exact of_decide_eq_true hle
  have hne : x ≠ y := by
    rintro rfl
    exact hd (mem_of_mem_head? hx) (mem_of_mem_head? hy)
  omega

/-- The forest after the walk over a body. -/
def walked (sites : List ℕ) (b : Body) : Forest ℕ :=
  (walk (siteIndex sites) b.stmt ([], Forest.singletons)).2

/-- **The groups are the classes of the forest.** -/
theorem classes_groupIndices (sites : List ℕ) (b : Body) :
    Classes (walked sites b) sites.length (groupIndices sites b) := by
  unfold groupIndices
  split_ifs with h h'
  · rw [h]
    exact ⟨List.Perm.refl _, fun g hg => absurd hg not_mem_nil, List.Pairwise.nil⟩
  · rw [h']
    refine ⟨List.Perm.refl _, ?_, pairwise_singleton _ _⟩
    intro g hg
    obtain rfl := mem_singleton.mp hg
    refine ⟨cons_ne_nil _ _, (walked sites b).root 0, ?_⟩
    simp [range_succ]
  · exact classes_insertionSort (gathered_gather _ _)

/-- Two numbers are in one group exactly when they have one root. -/
theorem Classes.same_iff (h : Classes F n groups)
    {j : ℕ} (hi : i < n) : (∃ g ∈ groups, i ∈ g ∧ j ∈ g) ↔ F.Same i j ∧ j < n := by
  constructor
  · rintro ⟨g, hg, hig, hjg⟩
    obtain ⟨-, r, rfl⟩ := h.members g hg
    rw [mem_filter, mem_range, decide_eq_true_eq] at hig hjg
    exact ⟨hig.2.trans hjg.2.symm, hjg.1⟩
  · rintro ⟨hsame, hj⟩
    obtain ⟨g, hg, hig⟩ := mem_flatten.mp (h.perm.symm.subset (mem_range.mpr hi))
    refine ⟨g, hg, hig, ?_⟩
    obtain ⟨-, r, rfl⟩ := h.members g hg
    rw [mem_filter, mem_range, decide_eq_true_eq] at hig ⊢
    exact ⟨hj, hsame.symm.trans hig.2⟩

/-! ## The sites of an execution -/

/-- The site an event shows. -/
def Event.live : Event → Option ℕ
  | .access _ live => live
  | .joined _ live => live

/-- Only sites of the allocatable become live. -/
theorem exec_live {m : Mode} {P : ℕ → Prop} {s : Stmt}
    (hP : ∀ a ∈ s.allocs, a.2 = declName ++ ".alloc" → P a.1) :
    ∀ {l tr l'}, Exec declName m s l tr l' → (∀ x ∈ l, P x) →
      (∀ x ∈ l', P x) ∧ ∀ e ∈ tr, ∀ x ∈ e.live, P x := by
  induction s with
  | skip =>
    rintro l tr l' ⟨rfl, rfl⟩ hl
    exact ⟨hl, fun e he => absurd he not_mem_nil⟩
  | seq s t ihs iht =>
    rintro l tr l' ⟨tr₁, l₁, tr₂, h₁, h₂, rfl⟩ hl
    obtain ⟨hl₁, he₁⟩ := ihs (fun a ha => hP a (mem_append_left _ ha)) h₁ hl
    obtain ⟨hl₂, he₂⟩ := iht (fun a ha => hP a (mem_append_right _ ha)) h₂ hl₁
    refine ⟨hl₂, ?_⟩
    intro e he
    rcases mem_append.mp he with he | he
    · exact he₁ e he
    · exact he₂ e he
  | allocmem op name =>
    rintro l tr l' ⟨rfl, rfl⟩ hl
    refine ⟨?_, fun e he => absurd he not_mem_nil⟩
    intro x hx
    split_ifs at hx with hname
    · obtain rfl := Option.mem_some_iff.mp hx
      exact hP _ (mem_singleton_self _) hname
    · exact hl x hx
  | access op name =>
    rintro l tr l' ⟨rfl, rfl⟩ hl
    refine ⟨hl, ?_⟩
    intro e he
    split_ifs at he
    · obtain rfl := mem_singleton.mp he
      exact hl
    · cases he
  | deallocate name =>
    rintro l tr l' ⟨rfl, h⟩ hl
    refine ⟨?_, fun e he => absurd he not_mem_nil⟩
    rcases h with ⟨-, -, rfl⟩ | ⟨-, rfl⟩
    · intro x hx
      cases hx
    · exact hl
  | ifOp op s t ihs iht =>
    rintro l tr l' ⟨tr₁, h, rfl⟩ hl
    have hbranch : (∀ x ∈ l', P x) ∧ ∀ e ∈ tr₁, ∀ x ∈ e.live, P x := by
      rcases h with h | h
      · exact ihs (fun a ha => hP a (mem_append_left _ ha)) h hl
      · exact iht (fun a ha => hP a (mem_append_right _ ha)) h hl
    refine ⟨hbranch.1, ?_⟩
    intro e he
    rcases mem_append.mp he with he | he
    · exact hbranch.2 e he
    · obtain rfl := mem_singleton.mp he
      exact hbranch.1
  | region body ih =>
    rintro l tr l' ⟨n, -, h⟩ hl
    -- on the number of turns
    induction n generalizing l tr with
    | zero =>
      obtain ⟨rfl, rfl⟩ := h
      exact ⟨hl, fun e he => absurd he not_mem_nil⟩
    | succ n ihn =>
      obtain ⟨tr₁, l₁, tr₂, h₁, h₂, rfl⟩ := h
      obtain ⟨hl₁, he₁⟩ := ih hP h₁ hl
      obtain ⟨hl₂, he₂⟩ := ihn h₂ hl₁
      refine ⟨hl₂, ?_⟩
      intro e he
      rcases mem_append.mp he with he | he
      · exact he₁ e he
      · exact he₂ e he

theorem mem_collectAllocSites (hname : declName ≠ "") :
    op ∈ collectAllocSites declName b ↔ (op, declName ++ ".alloc") ∈ b.stmt.allocs := by
  unfold collectAllocSites
  rw [if_neg hname, mem_map]
  constructor
  · rintro ⟨⟨op', name⟩, ha, rfl⟩
    obtain ⟨ha, hn⟩ := mem_filter.mp ha
    rwa [← of_decide_eq_true hn]
  · intro h
    exact ⟨_, mem_filter.mpr ⟨h, decide_eq_true rfl⟩, rfl⟩

theorem name_ne_of_mem (hx : x ∈ collectAllocSites declName b) : declName ≠ "" := by
  rintro rfl
  exact absurd hx not_mem_nil

/-- What an execution of the body shows is a site of the allocatable. -/
theorem Shows.mem_sites (hname : declName ≠ "") {m : Mode} {e : Event} (h : Shows declName m b e)
    (hx : x ∈ e.live) : x ∈ collectAllocSites declName b := by
  obtain ⟨tr, l, hexec, he⟩ := h
  refine (exec_live ?_ hexec (fun x hx => by cases hx)).2 e he x hx
  intro a ha hn
  rw [mem_collectAllocSites hname, ← hn]
  exact ha

theorem nodup_collectAllocSites (declName : String) (b : Body) :
    (collectAllocSites declName b).Nodup := by
  unfold collectAllocSites
  split_ifs
  · exact nodup_nil
  · exact (filter_sublist.map Prod.fst).nodup b.allocs_nodup

theorem indexed_siteIndex (hname : declName ≠ "") :
    Indexed declName (siteIndex (collectAllocSites declName b)) b.stmt := by
  intro a ha
  unfold siteIndex
  constructor
  · intro h
    split_ifs at h with hmem
    · rw [mem_collectAllocSites hname] at hmem
      have heq := inj_on_of_nodup_map b.allocs_nodup hmem ha rfl
      rw [← heq]
    · cases h
  · intro h
    rw [if_pos ((mem_collectAllocSites hname).mpr (by rw [← h]; exact ha))]
    rfl

/-! ## The groups and the ends of `IF`s -/

/-- The number of a site leads back to it. -/
theorem getD_idxOf (hx : x ∈ sites) :
    sites.getD (sites.idxOf x) 0 = x := by
  rw [getD_eq_getElem?_getD, List.getElem?_eq_getElem (idxOf_lt_length_of_mem hx),
    getElem_idxOf]
  rfl

theorem idxOf_getD (hn : sites.Nodup) (hi : i < sites.length) :
    sites.idxOf (sites.getD i 0) = i := by
  rw [getD_eq_getElem?_getD, List.getElem?_eq_getElem hi]
  exact hn.idxOf_getElem i hi

/-- The numbers that meet at the end of an `IF` are those of sites that do. -/
theorem joined_iff :
    Joined declName (siteIndex (collectAllocSites declName b)) b.stmt (· = none) op i ↔
      ∃ x ∈ collectAllocSites declName b, (collectAllocSites declName b).idxOf x = i ∧
        Shows declName once b (.joined op (some x)) := by
  constructor
  · rintro ⟨l, tr, l', x, rfl, hexec, he, hi⟩
    rcases x with _ | x
    · cases hi
    · rw [Option.bind_some] at hi
      unfold siteIndex at hi
      split_ifs at hi with hx
      exact ⟨x, hx, Option.some.inj hi, tr, l', hexec, he⟩
  · rintro ⟨x, hx, rfl, tr, l', hexec, he⟩
    refine ⟨none, tr, l', some x, rfl, hexec, he, ?_⟩
    rw [Option.bind_some]
    exact if_pos hx

/-- Two sites have one root exactly when ends of `IF`s connect them. -/
theorem same_walked_iff (hx : x ∈ collectAllocSites declName b)
    (hy : y ∈ collectAllocSites declName b) :
    (walked (collectAllocSites declName b) b).Same ((collectAllocSites declName b).idxOf x)
      ((collectAllocSites declName b).idxOf y) ↔ Relation.EqvGen (MeetAtIf declName b) x y := by
  have hname := name_ne_of_mem hx
  have hnone : Describes (siteIndex (collectAllocSites declName b)) [] (· = none) := by
    refine ⟨⟨none, rfl⟩, ?_⟩
    intro i
    simp
  have hwalk := walk_spec (F := Forest.singletons) (indexed_siteIndex hname) b.ifs_nodup hnone
    (fun a ha => absurd ha not_mem_nil)
  constructor
  · intro h
    have heqv : Equivalence fun i j => Relation.EqvGen (MeetAtIf declName b)
        ((collectAllocSites declName b).getD i 0) ((collectAllocSites declName b).getD j 0) :=
      (Relation.EqvGen.is_equivalence (MeetAtIf declName b)).comap
        fun i => (collectAllocSites declName b).getD i 0
    rw [← getD_idxOf hx, ← getD_idxOf hy]
    refine heqv.eqvGen_iff.mp (Relation.EqvGen.mono ?_ _ _ (hwalk.sound _ _ h))
    rintro i j (hij | ⟨op, hi, hj⟩)
    · have hij' : i = j := by simpa [Forest.Same] using hij
      rw [hij']
      exact .refl _
    · obtain ⟨u, hu, rfl, hsu⟩ := joined_iff.mp hi
      obtain ⟨v, hv, rfl, hsv⟩ := joined_iff.mp hj
      rw [getD_idxOf hu, getD_idxOf hv]
      exact .rel _ _ ⟨op, hsu, hsv⟩
  · have heqv : Equivalence fun u v => (walked (collectAllocSites declName b) b).Same
        ((collectAllocSites declName b).idxOf u) ((collectAllocSites declName b).idxOf v) :=
      ⟨fun _ => rfl, Eq.symm, Eq.trans⟩
    intro h
    refine heqv.eqvGen_iff.mp (Relation.EqvGen.mono ?_ _ _ h)
    rintro u v ⟨op, hsu, hsv⟩
    exact hwalk.joins op _ _ (joined_iff.mpr ⟨u, hsu.mem_sites hname rfl, rfl, hsu⟩)
      (joined_iff.mpr ⟨v, hsv.mem_sites hname rfl, rfl, hsv⟩)

/-- The numbers in a group are those of sites. -/
theorem Classes.lt (h : Classes F n groups)
    {g : List ℕ} (hg : g ∈ groups) (hi : i ∈ g) : i < n := by
  obtain ⟨-, r, rfl⟩ := h.members g hg
  exact mem_range.mp (mem_filter.mp hi).1

/-- **Two sites are in one group** exactly when ends of `IF`s connect them. -/
theorem groupAllocSites_meet (hx : x ∈ collectAllocSites declName b)
    (hy : y ∈ collectAllocSites declName b) :
    (∃ g ∈ groupAllocSites declName b, x ∈ g ∧ y ∈ g) ↔
      Relation.EqvGen (MeetAtIf declName b) x y := by
  have hc := classes_groupIndices (collectAllocSites declName b) b
  have hnodup := nodup_collectAllocSites declName b
  rw [← same_walked_iff hx hy]
  have hlt := idxOf_lt_length_of_mem hy
  have hiff := hc.same_iff (j := (collectAllocSites declName b).idxOf y)
    (idxOf_lt_length_of_mem hx)
  rw [and_iff_left hlt] at hiff
  rw [← hiff]
  constructor
  · rintro ⟨g', hg', hxg, hyg⟩
    obtain ⟨g, hg, rfl⟩ := mem_map.mp hg'
    obtain ⟨i, hi, rfl⟩ := mem_map.mp hxg
    obtain ⟨j, hj, rfl⟩ := mem_map.mp hyg
    rw [idxOf_getD hnodup (hc.lt hg hi), idxOf_getD hnodup (hc.lt hg hj)]
    exact ⟨g, hg, hi, hj⟩
  · rintro ⟨g, hg, hi, hj⟩
    exact ⟨_, mem_map.mpr ⟨g, hg, rfl⟩, mem_map.mpr ⟨_, hi, getD_idxOf hx⟩,
      mem_map.mpr ⟨_, hj, getD_idxOf hy⟩⟩

/-- The groups are a partition of the sites, in the order of their first members. -/
theorem groupAllocSites_ordered {R : ℕ → ℕ → Prop}
    (h : ∀ x ∈ collectAllocSites declName b, ∀ y ∈ collectAllocSites declName b,
      Relation.EqvGen (MeetAtIf declName b) x y ↔ R x y) :
    PartitionedBy R (collectAllocSites declName b) (groupAllocSites declName b) := by
  have hc := classes_groupIndices (collectAllocSites declName b) b
  have hnodup := nodup_collectAllocSites declName b
  refine ⟨?_, ?_, ?_, ?_, ?_⟩
  · intro x hx y hy
    rw [groupAllocSites_meet hx hy, h x hx y hy]
  · have hflat : (groupAllocSites declName b).flatten =
        (groupIndices (collectAllocSites declName b) b).flatten.map
          fun i => (collectAllocSites declName b).getD i 0 := map_flatten.symm
    rw [hflat]
    refine (hc.perm.map _).trans (List.Perm.of_eq ?_)
    apply ext_getElem
    · simp
    · intro i hi hi'
      rw [getElem_map, getElem_range, getD_eq_getElem?_getD,
        List.getElem?_eq_getElem hi']
      rfl
  · intro g' hg'
    obtain ⟨g, hg, rfl⟩ := mem_map.mp hg'
    rw [Ne, map_eq_nil_iff]
    exact (hc.members g hg).1
  · intro g' hg'
    obtain ⟨g, hg, rfl⟩ := mem_map.mp hg'
    rw [pairwise_map]
    obtain ⟨-, r, hr⟩ := hc.members g hg
    have hasc : g.Pairwise (· < ·) := by
      rw [hr]
      exact pairwise_lt_range.filter _
    refine hasc.imp_of_mem ?_
    intro i j hi hj hij
    rwa [idxOf_getD hnodup (hc.lt hg hi), idxOf_getD hnodup (hc.lt hg hj)]
  · refine pairwise_map.mpr (hc.ordered.imp_of_mem ?_)
    intro g k hg hk hgk x hx y hy
    rw [List.head?_map] at hx hy
    obtain ⟨i, hi, rfl⟩ := Option.map_eq_some_iff.mp hx
    obtain ⟨j, hj, rfl⟩ := Option.map_eq_some_iff.mp hy
    rw [idxOf_getD hnodup (hc.lt hg (mem_of_mem_head? hi)),
      idxOf_getD hnodup (hc.lt hk (mem_of_mem_head? hj))]
    exact hgk i hi j hj

/-- **The groups are the partition by live buffers exactly when the accesses and the ends of `IF`s,
where every loop runs once, connect the same sites.** -/
theorem groupAllocSites_partitions_iff (declName : String) (b : Body) :
    PartitionedBy (Relation.EqvGen (LiveTogether declName b)) (collectAllocSites declName b)
        (groupAllocSites declName b) ↔
      (∀ x ∈ collectAllocSites declName b, ∀ y ∈ collectAllocSites declName b,
        LiveTogether declName b x y → Relation.EqvGen (MeetAtIf declName b) x y) ∧
      ∀ x ∈ collectAllocSites declName b, ∀ y ∈ collectAllocSites declName b,
        MeetAtIf declName b x y → Relation.EqvGen (LiveTogether declName b) x y := by
  constructor
  · intro h
    constructor
    · intro x hx y hy hxy
      rw [← groupAllocSites_meet hx hy, h.related x hx y hy]
      exact .rel _ _ hxy
    · intro x hx y hy hxy
      rw [← h.related x hx y hy, groupAllocSites_meet hx hy]
      exact .rel _ _ hxy
  · rintro ⟨hlive, hmeet⟩
    apply groupAllocSites_ordered
    intro x hx y _
    have hname := name_ne_of_mem hx
    constructor
    · refine eqvGen_bind ?_
      rintro u v ⟨op, hu, hv⟩
      exact hmeet u (hu.mem_sites hname rfl) v (hv.mem_sites hname rfl) ⟨op, hu, hv⟩
    · refine eqvGen_bind ?_
      rintro u v ⟨op, hu, hv⟩
      exact hlive u (hu.mem_sites hname rfl) v (hv.mem_sites hname rfl) ⟨op, hu, hv⟩

/-! ## A loop that allocates anew -/

/-- `allocate(a(n)); do ...; a = 0; deallocate(a); allocate(a(m)); end do`. -/
def reallocatingLoop : Body where
  stmt := .seq (.allocmem 0 "a.alloc") (.region (.seq (.access 2 "a")
    (.seq (.deallocate "a") (.allocmem 1 "a.alloc"))))
  allocs_nodup := by decide
  ifs_nodup := by decide

/-- **The walk misses the back edge**: the assignment writes the buffer of either statement, and
they are in two groups. -/
theorem not_partitions_reallocatingLoop :
    ¬PartitionedBy (Relation.EqvGen (LiveTogether "a" reallocatingLoop))
      (collectAllocSites "a" reallocatingLoop) (groupAllocSites "a" reallocatingLoop) := by
  intro h
  have hround : ∀ l, Exec "a" real (.seq (.access 2 "a") (.seq (.deallocate "a")
      (.allocmem 1 "a.alloc"))) l [.access 2 l] (some 1) := by
    intro l
    exact ⟨[.access 2 l], l, [], ⟨rfl, rfl⟩,
      ⟨[], none, [], ⟨rfl, Or.inl ⟨rfl, trivial, rfl⟩⟩, ⟨rfl, rfl⟩, rfl⟩, rfl⟩
  have hrun : Exec "a" real reallocatingLoop.stmt none
      [.access 2 (some 0), .access 2 (some 1)] (some 1) := by
    refine ⟨[], some 0, [.access 2 (some 0), .access 2 (some 1)], ⟨rfl, rfl⟩, ⟨2, trivial, ?_⟩, rfl⟩
    exact ⟨_, _, _, hround (some 0), ⟨_, _, _, hround (some 1), ⟨rfl, rfl⟩, rfl⟩, rfl⟩
  have hlive : LiveTogether "a" reallocatingLoop 0 1 := by
    exact ⟨2, ⟨_, _, hrun, List.mem_cons_self ..⟩,
      ⟨_, _, hrun, List.mem_cons_of_mem _ (List.mem_singleton_self _)⟩⟩
  have h₀ : 0 ∈ collectAllocSites "a" reallocatingLoop := by decide
  have h₁ : 1 ∈ collectAllocSites "a" reallocatingLoop := by decide
  have hmeet := (groupAllocSites_meet h₀ h₁).mp ((h.related 0 h₀ 1 h₁).mpr (.rel _ _ hlive))
  -- there is no `IF`
  have heq : Equivalence fun x y : ℕ => x = y := ⟨fun _ => rfl, Eq.symm, Eq.trans⟩
  have hfalse : (0 : ℕ) = 1 := by
    refine heq.eqvGen_iff.mp (Relation.EqvGen.mono ?_ _ _ hmeet)
    rintro x y ⟨op, ⟨tr, l, hexec, he⟩, -⟩
    cases joined_mem_ifs hexec he
  cases hfalse

end AllocSites
