/-
# When the reads are wired

A read's number in the code counts the occurrences of its array found before it, its connector's
number the reads of it before it.  The last read of an array tells them apart: a load found earlier
makes its number one that no connector has.
-/
import DaceFortran.TaskletReads.EmitTasklet

open List

namespace TaskletReads

/-! ## The connectors of the code -/

/-- The connectors of reads behind others. -/
def conns (order : List Name) : List (List Name) → List Read → List Name
  | _, [] => []
  | seen, r :: R => occName r.name (number order seen r.name) :: conns order (seen ++ [r.names]) R

theorem conns_length (order : List Name) (seen : List (List Name)) (R : List Read) :
    (conns order seen R).length = R.length := by
  induction R generalizing seen with
  | nil => rfl
  | cons r R ih => rw [conns, length_cons, length_cons, ih]

theorem settle_of_subset {scl order : List Name} (h : ∀ s ∈ scl, s ∈ order) (t : Tok) :
    settle scl order t = settle scl scl t := by
  cases t with
  | name s =>
    by_cases hs : s ∈ scl
    · simp [settle, hs, h s hs]
    · simp [settle, hs]
  | _ => rfl

theorem settle_nil (scl : List Name) (t : Tok) : settle scl [] t = t := by
  cases t <;> simp [settle]

theorem readsOf_word (t : Tok) (I : List Item) : readsOf (.word t :: I) = readsOf I := rfl

theorem readsOf_read (r : Read) (I : List Item) : readsOf (.read r :: I) = r :: readsOf I := rfl

variable {arrays scl order : List Name} {I : List Item} {nm : Name}

theorem State.rebuilt {seen : List (List Name)} {I J : List Item}
    (h : State arrays scl order order seen I J) (hscl : ∀ s ∈ scl, s ∈ order)
    (hreads : ∀ r ∈ readsOf I, r.name ∈ order) :
    textOf J = TaskletReads.rebuilt scl I (conns order seen (readsOf I)) := by
  induction h with
  | nil seen => rfl
  | word hlsq harray h ih =>
    rw [textOf_cons, readsOf_word, TaskletReads.rebuilt, ih hreads, settle_of_subset hscl]
    rfl
  | replaced hdone h ih =>
    rw [textOf_cons, readsOf_read, conns, TaskletReads.rebuilt,
      ih fun r hr => hreads r (mem_cons_of_mem _ hr)]
    rfl
  | left hdone hnames hbal hwords h ih =>
    exact absurd (hreads _ mem_cons_self) hdone

theorem State.initial
    (hwords : ∀ t, .word t ∈ I → t ≠ .lsq ∧ ∀ nm ∈ arrays, t ≠ .name nm)
    (hbal : ∀ r, .read r ∈ I → r.Balanced)
    (hsub : ∀ r, .read r ∈ I → ∀ nm ∈ arrays, .name nm ∉ r.words)
    (seen : List (List Name)) : State arrays scl order [] seen I I := by
  induction I generalizing seen with
  | nil => exact .nil seen
  | cons it I ih =>
    have hrest := ih (fun t ht => hwords t (mem_cons_of_mem _ ht))
      (fun r hr => hbal r (mem_cons_of_mem _ hr)) fun r hr => hsub r (mem_cons_of_mem _ hr)
    cases it with
    | word t =>
      obtain ⟨hlsq, harray⟩ := hwords t mem_cons_self
      have hstate : State arrays scl order [] seen (.word t :: I) (.word (settle scl [] t) :: I) :=
        .word hlsq harray (hrest seen)
      rwa [settle_nil] at hstate
    | read r =>
      refine .left (by simp) ?_ (hbal r mem_cons_self) (hsub r mem_cons_self) (hrest _)
      exact (takeWhile_eq_self_iff.2 fun y _ => by simp).symm

theorem mem_rebuilt {scl : List Name} {cs : List Name} (hlen : cs.length = (readsOf I).length)
    {t : Tok} : t ∈ rebuilt scl I cs ↔
      (∃ w, .word w ∈ I ∧ t = settle scl scl w) ∨ ∃ c ∈ cs, t = .name c := by
  induction I generalizing cs with
  | nil =>
    have hnil : cs = [] := length_eq_zero_iff.1 hlen
    subst hnil
    simp [rebuilt]
  | cons it I ih =>
    cases it with
    | word w =>
      rw [rebuilt, mem_cons, ih hlen]
      simp only [mem_cons, Item.word.injEq]
      constructor
      · rintro (h | ⟨w', hw', h⟩ | h)
        · exact .inl ⟨w, .inl rfl, h⟩
        · exact .inl ⟨w', .inr hw', h⟩
        · exact .inr h
      · rintro (⟨w', rfl | hw', h⟩ | h)
        · exact .inl h
        · exact .inr (.inl ⟨w', hw', h⟩)
        · exact .inr (.inr h)
    | read r =>
      rw [readsOf_read, length_cons] at hlen
      rcases cs with - | ⟨c, cs⟩
      · cases hlen
      · rw [rebuilt, mem_cons, ih (by simpa using hlen)]
        simp only [mem_cons, reduceCtorEq, false_or]
        constructor
        · rintro (h | h | ⟨c', hc', h⟩)
          · exact .inr ⟨c, .inl rfl, h⟩
          · exact .inl h
          · exact .inr ⟨c', .inr hc', h⟩
        · rintro (h | ⟨c', rfl | hc', h⟩)
          · exact .inr (.inl h)
          · exact .inl h
          · exact .inr (.inr ⟨c', hc', h⟩)

theorem weight_settle (scl done : List Name) (t : Tok) : (settle scl done t).weight = t.weight := by
  cases t with
  | name s =>
    simp only [settle]
    split_ifs <;> rfl
  | _ => rfl

theorem net_rebuilt {scl : List Name} (hbal : ∀ r, .read r ∈ I → r.Balanced)
    {cs : List Name} (hlen : cs.length = (readsOf I).length) :
    net (rebuilt scl I cs) = net (textOf I) := by
  induction I generalizing cs with
  | nil => rfl
  | cons it I ih =>
    have hbal' : ∀ r, .read r ∈ I → r.Balanced := fun r hr => hbal r (mem_cons_of_mem _ hr)
    cases it with
    | word w =>
      rw [rebuilt, net_cons, ih hbal' hlen, weight_settle, textOf_cons, net_append]
      simp [Item.text]
    | read r =>
      rw [readsOf_read, length_cons] at hlen
      rcases cs with - | ⟨c, cs⟩
      · cases hlen
      · rw [rebuilt, net_cons, ih hbal' (by simpa using hlen), textOf_cons, net_append, Item.text,
          net_text (hbal r mem_cons_self)]
        rfl

theorem rebuilt_inj {scl : List Name} {cs cs' : List Name}
    (hlen : cs.length = (readsOf I).length) (hlen' : cs'.length = (readsOf I).length)
    (h : rebuilt scl I cs = rebuilt scl I cs') : cs = cs' := by
  induction I generalizing cs cs' with
  | nil =>
    rw [length_eq_zero_iff.1 hlen, length_eq_zero_iff.1 hlen']
  | cons it I ih =>
    cases it with
    | word w => exact ih hlen hlen' (List.cons.inj h).2
    | read r =>
      rw [readsOf_read, length_cons] at hlen hlen'
      rcases cs with - | ⟨c, cs⟩
      · cases hlen
      · rcases cs' with - | ⟨c', cs'⟩
        · cases hlen'
        · obtain ⟨hhead, htail⟩ := List.cons.inj h
          have hc : c = c' := by simpa using hhead
          rw [hc, ih (by simpa using hlen) (by simpa using hlen') htail]

/-! ## Numbers -/

/-- The reads of an array. -/
def named (nm : Name) (R : List Read) : List Read := R.filter fun r => r.name = nm

theorem named_append (nm : Name) (R R' : List Read) :
    named nm (R ++ R') = named nm R ++ named nm R' :=
  filter_append ..

theorem named_cons_self {r : Read} (h : r.name = nm) (R : List Read) :
    named nm (r :: R) = r :: named nm R := filter_cons_of_pos (by simpa using h)

theorem named_cons_ne {r : Read} (h : r.name ≠ nm) (R : List Read) :
    named nm (r :: R) = named nm R := filter_cons_of_neg (by simpa using h)

/-- At its own array's turn a read is there. -/
theorem own_above (order : List Name) (r : Read) : r.name ∈ above order r.name r.names := by
  obtain ⟨L, hL⟩ := name_eq_head r
  have hnot : r.name ∉ order.takeWhile fun z => z ≠ r.name := by
    intro h
    simpa using mem_takeWhile_imp h
  rw [above, hL, takeWhile_cons_of_pos (by simpa using hnot)]
  exact mem_cons_self

theorem number_cons (order : List Name) (r : Read) (S : List Read) (nm : Name) :
    number order ((r :: S).map Read.names) nm =
      (if nm ∈ above order nm r.names then 1 else 0) + number order (S.map Read.names) nm := by
  have hcons : (r :: S).map Read.names = [r.names] ++ S.map Read.names := rfl
  unfold number
  rw [hcons, filter_append, length_append]
  split_ifs with h <;> simp [h]

theorem named_le_number (order : List Name) (S : List Read) (nm : Name) :
    (named nm S).length ≤ number order (S.map Read.names) nm := by
  induction S with
  | nil => exact Nat.zero_le _
  | cons r S ih =>
    rw [number_cons]
    by_cases h : r.name = nm
    · have hown := own_above order r
      rw [h] at hown
      rw [named_cons_self h, length_cons, if_pos hown]
      omega
    · rw [named_cons_ne h]
      omega

theorem number_eq_named {order : List Name} {S : List Read}
    (h : ∀ r ∈ S, nm ∈ above order nm r.names → r.name = nm) :
    number order (S.map Read.names) nm = (named nm S).length := by
  induction S with
  | nil => rfl
  | cons r S ih =>
    rw [number_cons, ih fun r' hr' => h r' (mem_cons_of_mem r hr')]
    by_cases hname : r.name = nm
    · have hown := own_above order r
      rw [hname] at hown
      rw [named_cons_self hname, length_cons, if_pos hown, Nat.add_comm]
    · have hnot : nm ∉ above order nm r.names := fun hin => hname (h r mem_cons_self hin)
      rw [named_cons_ne hname, if_neg hnot, Nat.zero_add]

/-! ## Edges -/

section Edges

variable {arrays scalars indirectArrays : List Name} {items : List Item}
    {accessed : List (Bool × Read)}

/-- The accesses of an assignment. -/
def accessesOf (accessed : List (Bool × Read)) : List Access :=
  accessed.flatMap fun q => q.2.accesses q.1

theorem Assign.mem_arrayEdges (h : Assign arrays scalars indirectArrays items accessed) {c : Name}
    {s : Source} : (c, s) ∈ arrayEdges arrays indirectArrays (textOf items) (accessesOf accessed) ↔
      ∃ nm i r, (named nm (readsOf items))[i]? = some r ∧ c = occName nm i ∧
        s = .access (r.access true) := by
  have hby (nm : Name) : readsByName arrays indirectArrays (textOf items) (accessesOf accessed) nm =
      (named nm (readsOf items)).map (Read.access true) := by
    rw [readsByName, accessesOf, h.valueReads, filter_map, named]
    rfl
  unfold arrayEdges
  simp only [mem_flatMap, hby, mem_map, mem_zipIdx_iff_getElem?, List.getElem?_map,
    Option.map_eq_some_iff, Prod.mk.injEq]
  constructor
  · rintro ⟨nm, -, ⟨a, i⟩, ⟨r, hr, rfl⟩, rfl, rfl⟩
    exact ⟨nm, i, r, hr, rfl, rfl⟩
  · rintro ⟨nm, i, r, hr, rfl, rfl⟩
    have hmem := mem_of_getElem? hr
    obtain ⟨hmem, hname⟩ := mem_filter.1 hmem
    exact ⟨nm, h.mem_rArr.2 ⟨r, hmem, by simpa using hname⟩, (r.access true, i),
      ⟨r, hr, rfl⟩, rfl, rfl⟩

theorem mem_scalarEdges {expr : List Tok} {c : Name} {s : Source} :
    (c, s) ∈ scalarEdges arrays scalars expr ↔
      ∃ sc ∈ rScl arrays scalars expr, c = inName sc ∧ s = .scalar sc := by
  unfold scalarEdges
  rw [mem_map]
  constructor
  · rintro ⟨sc, hsc, heq⟩
    cases heq
    exact ⟨sc, hsc, rfl, rfl⟩
  · rintro ⟨sc, hsc, rfl, rfl⟩
    exact ⟨sc, hsc, rfl⟩

/-- The numbers of a connector are those of the reads of its array. -/
theorem Assign.number_lt (h : Assign arrays scalars indirectArrays items accessed)
    {order : List Name}
    {x : Name} {n : ℕ} {a : Access}
    (hwired : Wired (emitTasklet arrays scalars indirectArrays (textOf items) (accessesOf accessed)
      order).edges (occName x n) (.access a)) : n < (named x (readsOf items)).length := by
  rcases mem_append.1 hwired.1 with hmem | hmem
  · obtain ⟨nm, i, r, hr, hocc, -⟩ := h.mem_arrayEdges.1 hmem
    obtain ⟨rfl, rfl⟩ := occName_inj hocc
    exact (List.getElem?_eq_some_iff.1 hr).1
  · obtain ⟨sc, -, -, hs⟩ := mem_scalarEdges.1 hmem
    cases hs

/-! ## The code -/

variable {order : List Name}

theorem Assign.names (h : Assign arrays scalars indirectArrays items accessed)
    (horder : SortedTokens (rArr arrays indirectArrays (textOf items) ++
      rScl arrays scalars (textOf items))
      order) :
    Names (rArr arrays indirectArrays (textOf items))
      (rScl arrays scalars (textOf items)) order items := by
  have harrays : ∀ nm ∈ rArr arrays indirectArrays (textOf items), nm ∈ arrays := by
    intro nm hnm
    obtain ⟨r, hr, rfl⟩ := h.mem_rArr.1 hnm
    obtain ⟨L, hL⟩ := name_eq_head r
    exact h.isArray r (mem_readsOf.1 hr) r.name (by rw [hL]; exact mem_cons_self)
  have htokens : ∀ nm ∈ rArr arrays indirectArrays (textOf items), nm ∈
      identTokens (textOf items) := by
    intro nm hnm
    unfold rArr at hnm
    exact mem_dedup.1 (mem_of_mem_filter hnm)
  refine ⟨horder.nodup, fun nm hnm => mem_append.1 ((horder.mem nm).1 hnm), fun nm hnm hscl => ?_,
    fun nm hnm => ?_, fun nm hnm => h.fresh nm (htokens nm hnm), fun r hr nm hnm hscl => ?_⟩
  · exact (mem_rScl.1 hscl).2.2 (harrays nm hnm)
  · rcases mem_append.1 ((horder.mem nm).1 hnm) with hnm | hnm
    · exact h.fresh nm (htokens nm hnm)
    · exact h.fresh nm (mem_identTokens.2 (mem_rScl.1 hnm).1)
  · exact (mem_rScl.1 hscl).2.2 (h.isArray r hr nm hnm)

theorem Assign.initial (h : Assign arrays scalars indirectArrays items accessed) :
    State (rArr arrays indirectArrays (textOf items)) (rScl arrays scalars (textOf items)) order []
    []
      items items := by
  have harrays : ∀ nm ∈ rArr arrays indirectArrays (textOf items), nm ∈ arrays := by
    intro nm hnm
    unfold rArr at hnm
    have hand := of_mem_filter hnm
    simp only [decide_eq_true_eq] at hand
    exact hand.1
  exact State.initial (fun t ht => ⟨(h.words t ht).1,
    fun nm hnm => (h.words t ht).2.2 nm (harrays nm hnm)⟩)
    h.balanced (fun r hr nm hnm => (h.subWords r hr).2 nm (harrays nm hnm)) []

theorem Assign.code (h : Assign arrays scalars indirectArrays items accessed)
    (horder : SortedTokens (rArr arrays indirectArrays (textOf items) ++
      rScl arrays scalars (textOf items))
      order)
    (hnested : ∀ nm ∈ rArr arrays indirectArrays (textOf items), ∀ r ∈ readsOf items,
      (above order nm r.names).count nm ≤ 1) :
    rewriteReadConnectors (textOf items) order (rScl arrays scalars (textOf items)) =
      rebuilt (rScl arrays scalars (textOf items)) items (conns order [] (readsOf items)) := by
  obtain ⟨J, hJ, hstate⟩ := State.run (h.names horder)
    (fun nm _ hnm r hr => hnested nm hnm r (mem_readsOf.2 hr)) order [] items rfl h.initial
  have hreads : ∀ r ∈ readsOf items, r.name ∈ order := fun r hr =>
    (horder.mem r.name).2 (mem_append_left _ (h.mem_rArr.2 ⟨r, hr, rfl⟩))
  have hscl : ∀ s ∈ rScl arrays scalars (textOf items), s ∈ order := fun s hs =>
    (horder.mem s).2 (mem_append_right _ hs)
  rw [rewriteReadConnectors, hJ, hstate.rebuilt hscl hreads]

/-- Code that is the expression with connectors has no array in its own subscript. -/
theorem Assign.nested (h : Assign arrays scalars indirectArrays items accessed)
    (horder : SortedTokens (rArr arrays indirectArrays (textOf items) ++
      rScl arrays scalars (textOf items))
      order) {cs : List Name} (hlen : cs.length = (readsOf items).length)
    (hcode : rewriteReadConnectors (textOf items) order (rScl arrays scalars (textOf items)) =
      rebuilt (rScl arrays scalars (textOf items)) items cs) :
    ∀ nm ∈ rArr arrays indirectArrays (textOf items), ∀ r ∈ readsOf items,
      (above order nm r.names).count nm ≤ 1 := by
  intro nm hnm r hr
  by_contra hcount
  have hlt := State.run_nested (h.names horder) order [] items rfl h.initial
    ⟨nm, (horder.mem nm).2 (mem_append_left _ hnm), hnm, r, mem_readsOf.1 hr, by omega⟩
  have hnet : net (rebuilt (rScl arrays scalars (textOf items)) items cs) = net (textOf items) :=
    net_rebuilt h.balanced hlen
  rw [← hcode, rewriteReadConnectors] at hnet
  omega

/-! ## Enough -/

theorem Assign.wired (h : Assign arrays scalars indirectArrays items accessed)
    (hseparate : Separate (rArr arrays indirectArrays (textOf items))
      (rScl arrays scalars (textOf items))
      order items) (R : List Read) : ∀ S, readsOf items = S ++ R →
    List.Forall₂ (fun c (r : Read) => Wired
      (emitTasklet arrays scalars indirectArrays (textOf items)
      (accessesOf accessed) order).edges c (.access (r.access true)))
      (conns order (S.map Read.names) R) R := by
  induction R with
  | nil => exact fun S _ => .nil
  | cons r R ih =>
    intro S hsplit
    have hnumber : number order (S.map Read.names) r.name = (named r.name S).length := by
      have hpair := hseparate.hidden
      rw [hsplit, pairwise_append] at hpair
      exact number_eq_named fun r' hr' => hpair.2.2 r' hr' r mem_cons_self
    have hget : (named r.name (readsOf items))[(named r.name S).length]? = some r := by
      rw [hsplit, named_append, named_cons_self rfl,
        List.getElem?_append_right le_rfl, Nat.sub_self]
      rfl
    have hrest := ih (S ++ [r]) (by rw [hsplit]; simp)
    rw [map_append] at hrest
    refine .cons ⟨mem_append_left _ ?_, fun s' hs' => ?_⟩ hrest
    · exact h.mem_arrayEdges.2 ⟨r.name, _, r, hget, by rw [hnumber], rfl⟩
    · rw [hnumber] at hs'
      rcases mem_append.1 hs' with hs' | hs'
      · obtain ⟨nm, i, r', hr', hocc, rfl⟩ := h.mem_arrayEdges.1 hs'
        obtain ⟨rfl, rfl⟩ := occName_inj hocc
        rw [hget] at hr'
        rw [Option.some.inj hr']
      · obtain ⟨sc, hsc, hocc, -⟩ := mem_scalarEdges.1 hs'
        have hmem : r ∈ readsOf items := by rw [hsplit]; simp
        refine absurd hocc.symm (hseparate.apart sc hsc r.name (h.mem_rArr.2 ⟨r, hmem, rfl⟩) _ ?_)
        exact (List.getElem?_eq_some_iff.1 hget).1

/-- Every connector of an array is that of one of its reads. -/
theorem occName_mem_conns {items : List Item}
    (hhidden : (readsOf items).Pairwise fun r r' => r'.name ∈ above order r'.name r.names →
      r.name = r'.name)
    {nm : Name} {i : ℕ} (R : List Read) : ∀ S, readsOf items = S ++ R → (named nm S).length ≤ i →
    i < (named nm (S ++ R)).length → occName nm i ∈ conns order (S.map Read.names) R := by
  induction R with
  | nil =>
    intro S _ hle hlt
    rw [append_nil] at hlt
    omega
  | cons r R ih =>
    intro S hsplit hle hlt
    have hsplit' : readsOf items = (S ++ [r]) ++ R := by rw [hsplit]; simp
    have hlt' : i < (named nm ((S ++ [r]) ++ R)).length := by
      rwa [append_assoc, singleton_append]
    have hrest := ih (S ++ [r]) hsplit'
    rw [map_append] at hrest
    rw [conns, mem_cons]
    by_cases hname : r.name = nm
    · subst hname
      have hnumber : number order (S.map Read.names) r.name = (named r.name S).length := by
        rw [hsplit, pairwise_append] at hhidden
        exact number_eq_named fun r' hr' => hhidden.2.2 r' hr' r mem_cons_self
      by_cases hi : i = (named r.name S).length
      · exact .inl (by rw [hnumber, hi])
      · refine .inr (hrest ?_ hlt')
        rw [named_append, named_cons_self rfl, length_append]
        simp only [named, filter_nil, length_singleton]
        exact Nat.lt_of_le_of_ne hle fun h => hi h.symm
    · refine .inr (hrest ?_ hlt')
      rw [named_append, named_cons_ne hname]
      simpa [named] using hle

end Edges

end TaskletReads
