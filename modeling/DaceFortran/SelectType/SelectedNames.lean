/-
# The names in a spliced body

The associate name is replaced by the dummy wherever it is spelled.  The condition under which
this changes no meaning looks at the last of the two names that a construct in the body has
declared.
-/
import DaceFortran.SelectType.SelectWalk

open List

namespace SelectType

variable {Name : Type} [DecidableEq Name]

/-! ## The condition -/

/-- The last one of the two names that a construct declares. -/
def lastBound (s d : Name) (m : Option Name) (binds : List Name) : Option Name :=
  if s ∈ binds then some s else if d ∈ binds then some d else m

/-- Neither of the two names is referred to where the other one has been declared since. -/
def ClearRef (s d : Name) (m : Option Name) (x : Name) : Prop := x = s ∨ x = d → ∀ y ∈ m, y = x

/-- No component and no keyword is spelled like the associate name. -/
def ClearOccurrence (s d : Name) (m : Option Name) (o : Occurrence Name) : Prop :=
  if o.reference then ClearRef s d m o.name else o.name = s → s = d

/-- The selector is not the dummy: it is neither of the two names, or one that has been declared
since. -/
def ClearSelector (s d : Name) (m : Option Name) : Selector Name → Prop
  | .name x => x = s ∨ x = d → m = some x
  | .expr names => ∀ o ∈ names, ClearOccurrence s d m o

/-- A body for the associate name `s` and the dummy `d` in which `m` of the two has been declared:
it has no SELECT TYPE on the dummy, and `d` can be written for `s`. -/
def ClearBody (s d : Name) : Option Name → Block Name → Prop
  | _, .nil => True
  | m, .stmt _ names rest => (∀ o ∈ names, ClearOccurrence s d m o) ∧ ClearBody s d m rest
  | m, .construct _ binds names _ parts rest =>
    (s ∈ binds → d ∈ binds → s = d) ∧ (∀ o ∈ names, ClearOccurrence s d m o) ∧
      (∀ j, ClearBody s d (lastBound s d m binds) (parts j)) ∧ ClearBody s d m rest
  | m, .selectType _ assoc selector _ _ bodies rest =>
    ClearSelector s d m selector ∧
      (∀ j, ClearBody s d (lastBound s d m (associates assoc selector)) (bodies j)) ∧
      ClearBody s d m rest

/-- No SELECT TYPE is on the dummy's name where a construct has declared it anew, and the body of
the guard that is taken is clear. -/
def ClearScope (tinfos : List (Name × Option Name)) (dummy armType : Name) :
    Bool → Block Name → Prop
  | _, .nil => True
  | rebound, .stmt _ _ rest => ClearScope tinfos dummy armType rebound rest
  | rebound, .construct _ binds _ _ parts rest =>
    (∀ j, ClearScope tinfos dummy armType (rebound || decide (dummy ∈ binds)) (parts j)) ∧
      ClearScope tinfos dummy armType rebound rest
  | rebound, .selectType _ assoc selector _ guards bodies rest =>
    (if selector = .name dummy then
        rebound = false ∧ ∀ j ∈ chooseGuard tinfos armType guards,
          ClearBody (assoc.getD dummy) dummy none (bodies j)
      else ∀ j, ClearScope tinfos dummy armType
        (rebound || decide (dummy ∈ associates assoc selector)) (bodies j)) ∧
      ClearScope tinfos dummy armType rebound rest

/-! ## Renaming -/

section

variable {s d : Name}

theorem renamed_self (x : Name) : renamed d d x = x := by
  unfold renamed
  split
  · rename_i h
    exact h.symm
  · rfl

theorem Occurrence.rename_self (o : Occurrence Name) : o.rename d d = o := by
  rw [Occurrence.rename, renamed_self]

theorem Block.rename_self (b : Block Name) : b.rename d d = b := by
  have hnames : ∀ names : List (Occurrence Name), names.map (Occurrence.rename d d) = names :=
    fun names => by
    rw [map_congr_left fun o _ => o.rename_self, map_id']
  have hbinds : ∀ binds : List Name, binds.map (renamed d d) = binds := fun binds => by
    rw [map_congr_left fun x _ => renamed_self x, map_id']
  induction b with
  | nil => rfl
  | stmt place names rest ih => rw [Block.rename, hnames, ih]
  | construct place binds names n parts rest ihp ih =>
      simp only [Block.rename, hnames, hbinds, ihp, ih]
  | selectType node assoc selector n guards bodies rest ihp ih =>
    have hassoc : assoc.map (renamed d d) = assoc := by
      cases assoc with
      | none => rfl
      | some x => exact congrArg some (renamed_self x)
    have hselector : selector.rename d d = selector := by
      cases selector with
      | name x => exact congrArg Selector.name (renamed_self x)
      | expr names => exact congrArg Selector.expr (hnames names)
    simp only [Block.rename, hassoc, hselector, ihp, ih]

theorem Block.rename_parseExec (b : Block Name) :
    b.parseExec.rename s d = (b.rename s d).parseExec := by
  induction b with
  | nil => rfl
  | stmt place names rest ih => exact congrArg _ ih
  | construct place binds names n parts rest ihp ih =>
      simp only [Block.parseExec, Block.rename, ihp, ih]
  | selectType node assoc selector n guards bodies rest ihp ih =>
      simp only [Block.parseExec, Block.rename, ihp, ih]

/-- A second parse refers to the same. -/
theorem denote_parseExec (env : Name → Entity Name) (b : Block Name) :
    denote env b.parseExec = denote env b := by
  induction b generalizing env with
  | nil => rfl
  | stmt place names rest ih => simp only [Block.parseExec, denote, ih]
  | construct place binds names n parts rest ihp ih => simp only [Block.parseExec, denote, ihp, ih]
  | selectType node assoc selector n guards bodies rest ihp ih =>
      simp only [Block.parseExec, denote, ihp, ih]

/-- What is spliced for a guard is its body, with the dummy for the associate name. -/
theorem denote_spliced (env : Name → Entity Name) {tinfos : List (Name × Option Name)}
    {armType : Name}
    {assoc : Option Name} {n : ℕ} {guards : Fin n → Guard Name}
    {bodies : Fin n → Block Name} {j : Fin n}
    (hj : chooseGuard tinfos armType guards = some j) :
    denote env (spliced tinfos d armType assoc guards bodies) =
      denote env ((bodies j).rename (assoc.getD d) d) := by
  unfold spliced
  rw [hj]
  cases assoc with
  | none => exact (denote_parseExec env _).trans (by rw [Option.getD_none, Block.rename_self])
  | some s =>
    exact (congrArg (denote env) (Block.rename_parseExec _)).trans (denote_parseExec env _)

theorem associates_rename (assoc : Option Name) (selector : Selector Name) :
    associates (assoc.map (renamed s d)) (selector.rename s d) =
      (associates assoc selector).map (renamed s d) := by
  cases assoc with
  | some x => rfl
  | none => cases selector <;> rfl

end

/-! ## Scopes before and after the renaming -/

/-- The scope of a body and that of its text after the renaming. -/
structure Follows (s d : Name) (m : Option Name) (env env' : Name → Entity Name) : Prop where
  others : ∀ x, x ≠ s → x ≠ d → env' x = env x ∧ env x ≠ .outer d
  dummy : env' d = env (m.getD s)
  free : m = none → env s = .outer d ∧ env d = .outer d
  bound : ∀ y ∈ m, (y = s ∨ y = d) ∧ env y ≠ .outer d ∧ ∀ x, x = s ∨ x = d → x ≠ y → env x ≠ env y

section

variable {s d : Name} {m : Option Name} {env env' : Name → Entity Name}

variable {x : Name} {binds : List Name} {place : ℕ}

theorem renamed_of_or (h : x = s ∨ x = d) : renamed s d x = d := by
  unfold renamed
  split
  · rfl
  · rename_i hx
    exact h.resolve_left hx

theorem renamed_of_ne (h : x ≠ s) : renamed s d x = x := if_neg h

theorem Follows.ref_iff (h : Follows s d m env env') (x : Name) :
    env' (renamed s d x) = env x ↔ ClearRef s d m x := by
  by_cases hx : x = s ∨ x = d
  · rw [renamed_of_or hx, h.dummy]
    cases m with
    | none =>
      have hfree := h.free rfl
      have henv : env x = .outer d := by
        rcases hx with rfl | rfl
        · exact hfree.1
        · exact hfree.2
      exact iff_of_true (hfree.1.trans henv.symm) fun _ y hy => absurd hy (by simp)
    | some y =>
      constructor
      · rintro heq - z ⟨⟩
        by_contra hne
        exact (h.bound y rfl).2.2 x hx (Ne.symm hne) heq.symm
      · intro hclear
        exact congrArg env (hclear hx y rfl)
  · rw [not_or] at hx
    rw [renamed_of_ne hx.1]
    exact iff_of_true (h.others x hx.1 hx.2).1 fun hx' => absurd hx' (not_or.2 hx)

theorem Follows.use_iff (h : Follows s d m env env') (o : Occurrence Name) :
    (o.rename s d).use env' = o.use env ↔ ClearOccurrence s d m o := by
  obtain ⟨x, reference⟩ := o
  cases reference with
  | true =>
    simp only [Occurrence.rename, Occurrence.use, ClearOccurrence, if_true, Use.entity.injEq]
    exact h.ref_iff x
  | false =>
    simp only [Occurrence.rename, Occurrence.use, ClearOccurrence, Bool.false_eq_true, if_false,
      Use.member.injEq]
    unfold renamed
    constructor
    · rintro hx rfl
      rw [if_pos rfl] at hx
      exact hx.symm
    · intro hx
      split
      · rename_i hs
        rw [hs, hx hs]
      · rfl

theorem Follows.uses_iff (h : Follows s d m env env') (names : List (Occurrence Name)) :
    (names.map (Occurrence.rename s d)).map (Occurrence.use env') = names.map (Occurrence.use env) ↔
      ∀ o ∈ names, ClearOccurrence s d m o := by
  rw [map_map, map_inj_left]
  exact forall_congr' fun o => imp_congr_right fun _ => h.use_iff o

/-- The dummy is one of the two names, as long as neither has been declared anew. -/
theorem Follows.eq_of_outer (h : Follows s d m env env') (hx : env x = .outer d) :
    (x = s ∨ x = d) ∧ ∀ y ∈ m, y ≠ x := by
  constructor
  · by_contra hne
    rw [not_or] at hne
    exact (h.others x hne.1 hne.2).2 hx
  · rintro y hy rfl
    exact (h.bound y hy).2.1 hx

theorem Follows.selector_iff (h : Follows s d m env env') (selector : Selector Name) :
    (selector.rename s d).use env' = selector.use env ∧ ¬ OnDummy env d selector ↔
      ClearSelector s d m selector := by
  cases selector with
  | expr names =>
    simp only [Selector.rename, Selector.use, SelectorUse.expr.injEq, OnDummy,
      not_false_eq_true, and_true]
    exact h.uses_iff names
  | name x =>
    simp only [Selector.rename, Selector.use, SelectorUse.entity.injEq, OnDummy, ClearSelector]
    rw [h.ref_iff]
    constructor
    · rintro ⟨hclear, hne⟩ hx
      cases m with
      | none =>
        refine absurd ?_ hne
        rcases hx with rfl | rfl
        · exact (h.free rfl).1
        · exact (h.free rfl).2
      | some y => exact congrArg some (hclear hx y rfl)
    · intro hsel
      refine ⟨fun hx y hy => ?_, fun hx => ?_⟩
      · rw [hsel hx] at hy
        exact (Option.some.inj hy).symm
      · obtain ⟨hx', hm⟩ := h.eq_of_outer hx
        exact hm x (hsel hx') rfl

/-! ## Inside of a construct -/

theorem bind_of_mem (h : x ∈ binds) :
    bind env place binds x = .inner place (binds.idxOf x) := if_pos h

theorem bind_of_notMem (h : x ∉ binds) :
    bind env place binds x = env x := if_neg h

theorem bind_ne_outer (h : x ∈ binds) :
    bind env place binds x ≠ .outer d := by
  rw [bind_of_mem h]
  exact nofun

theorem idxOf_map {l : List Name} {f : Name → Name} (h : ∀ y ∈ l, f y = f x ↔ y = x) :
    (l.map f).idxOf (f x) = l.idxOf x := by
  induction l with
  | nil => rfl
  | cons y l ih =>
    have hy := h y mem_cons_self
    rw [map_cons, idxOf_cons, idxOf_cons, ih fun z hz => h z (mem_cons_of_mem y hz)]
    by_cases hyx : y = x
    · rw [hyx, beq_self_eq_true, beq_self_eq_true]
    · rw [beq_false_of_ne hyx, beq_false_of_ne fun h' => hyx (hy.1 h')]

/-- A name apart from the two is declared by the same constructs. -/
theorem bind_map_other (hs : x ≠ s) (hd : x ≠ d)
    (h : env' x = env x) : bind env' place (binds.map (renamed s d)) x =
      bind env place binds x := by
  have hiff : ∀ y, renamed s d y = x ↔ y = x := by
    intro y
    unfold renamed
    split
    · rename_i hy
      exact iff_of_false (Ne.symm hd) fun h => hs (h ▸ hy)
    · rfl
  by_cases hx : x ∈ binds
  · have hx' : x ∈ binds.map (renamed s d) := mem_map.2 ⟨x, hx, (hiff x).2 rfl⟩
    rw [bind_of_mem hx, bind_of_mem hx']
    congr 1
    conv_lhs => rw [← (hiff x).2 rfl]
    exact idxOf_map fun y _ => by rw [(hiff x).2 rfl, hiff y]
  · have hx' : x ∉ binds.map (renamed s d) := by
      intro hmem
      obtain ⟨y, hy, hyx⟩ := mem_map.1 hmem
      exact hx ((hiff y).1 hyx ▸ hy)
    rw [bind_of_notMem hx, bind_of_notMem hx', h]

/-- **Inside of a construct** that does not declare both names, one scope still follows the
other. -/
theorem Follows.inside (h : Follows s d m env env')
    (hb : s ∈ binds → d ∈ binds → s = d) (hp : ∀ x k, env x ≠ .inner place k) :
    Follows s d (lastBound s d m binds) (bind env place binds)
      (bind env' place (binds.map (renamed s d))) := by
  have hothers : ∀ x, x ≠ s → x ≠ d →
      bind env' place (binds.map (renamed s d)) x = bind env place binds x ∧
        bind env place binds x ≠ .outer d := by
    intro x hs hd
    refine ⟨bind_map_other hs hd (h.others x hs hd).1, ?_⟩
    by_cases hx : x ∈ binds
    · exact bind_ne_outer hx
    · rw [bind_of_notMem hx]
      exact (h.others x hs hd).2
  -- the construct declares the one name, the other or neither
  by_cases hs : s ∈ binds
  · have hlast : lastBound s d m binds = some s := if_pos hs
    have hd : d ∈ binds.map (renamed s d) := mem_map.2 ⟨s, hs, renamed_of_or (.inl rfl)⟩
    rw [hlast]
    refine ⟨hothers, ?_, nofun, ?_⟩
    · have hself : renamed s d s = d := renamed_of_or (.inl rfl)
      have hidx : (binds.map (renamed s d)).idxOf (renamed s d s) = binds.idxOf s := by
        refine idxOf_map fun y hy => ⟨fun heq => ?_, fun heq => congrArg _ heq⟩
        by_contra hne
        rw [renamed_of_ne hne, hself] at heq
        have hdb : d ∈ binds := heq ▸ hy
        exact hne (heq.trans (hb hs hdb).symm)
      rw [hself] at hidx
      rw [Option.getD_some, bind_of_mem hs, bind_of_mem hd, hidx]
    · rintro y ⟨⟩
      refine ⟨.inl rfl, bind_ne_outer hs, fun x hx hne => ?_⟩
      obtain rfl : x = d := hx.resolve_left hne
      have hxb : x ∉ binds := fun hx => hne (hb hs hx).symm
      rw [bind_of_notMem hxb, bind_of_mem hs]
      exact hp x _
  · by_cases hd : d ∈ binds
    · have hlast : lastBound s d m binds = some d := by rw [lastBound, if_neg hs, if_pos hd]
      have hmap : binds.map (renamed s d) = binds := by
        rw [map_congr_left fun y hy => renamed_of_ne (d := d) (ne_of_mem_of_not_mem hy hs), map_id']
      rw [hlast]
      refine ⟨hothers, ?_, nofun, ?_⟩
      · rw [hmap, Option.getD_some, bind_of_mem hd, bind_of_mem hd]
      · rintro y ⟨⟩
        refine ⟨.inr rfl, bind_ne_outer hd, fun x hx hne => ?_⟩
        obtain rfl : x = s := hx.resolve_right hne
        rw [bind_of_notMem hs, bind_of_mem hd]
        exact hp x _
    · have hlast : lastBound s d m binds = m := by rw [lastBound, if_neg hs, if_neg hd]
      have hsame : ∀ x, x = s ∨ x = d → bind env place binds x = env x := by
        rintro x (rfl | rfl)
        · exact bind_of_notMem hs
        · exact bind_of_notMem hd
      have hd' : d ∉ binds.map (renamed s d) := by
        intro hmem
        obtain ⟨y, hy, hyd⟩ := mem_map.1 hmem
        rw [renamed_of_ne (ne_of_mem_of_not_mem hy hs)] at hyd
        exact hd (hyd ▸ hy)
      rw [hlast]
      refine ⟨hothers, ?_, fun hm => ?_, fun y hy => ?_⟩
      · have hlastIn : m.getD s = s ∨ m.getD s = d := by
          cases m with
          | none => exact .inl rfl
          | some y => exact (h.bound y rfl).1
        rw [bind_of_notMem hd', hsame _ hlastIn]
        exact h.dummy
      · rw [hsame s (.inl rfl), hsame d (.inr rfl)]
        exact h.free hm
      · obtain ⟨hy', hne, hdiff⟩ := h.bound y hy
        rw [hsame y hy']
        exact ⟨hy', hne, fun x hx hxy => by rw [hsame x hx]; exact hdiff x hx hxy⟩

/-- The names of a construct are apart after the renaming where it does not declare both. -/
theorem nodup_map_renamed (h : binds.Nodup) :
    (binds.map (renamed s d)).Nodup ↔ (s ∈ binds → d ∈ binds → s = d) := by
  constructor
  · intro hmap hs hd
    exact (inj_on_of_nodup_map hmap) hs hd
      ((renamed_of_or (.inl rfl)).trans (renamed_of_or (.inr rfl)).symm)
  · intro hb
    refine (nodup_map_iff_inj_on h).2 fun x hx y hy heq => ?_
    by_cases hxs : x = s
    · by_cases hys : y = s
      · rw [hxs, hys]
      · rw [hxs, renamed_of_or (.inl rfl), renamed_of_ne hys] at heq
        rw [hxs, ← heq]
        exact hb (hxs ▸ hx) (heq ▸ hy)
    · by_cases hys : y = s
      · rw [hys, renamed_of_or (.inl rfl), renamed_of_ne hxs] at heq
        rw [hys, heq]
        exact (hb (hys ▸ hy) (heq ▸ hx)).symm
      · rwa [renamed_of_ne hxs, renamed_of_ne hys] at heq

end

end SelectType
