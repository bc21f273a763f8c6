/-
# The flat batch keeps the source order

The chain `emit_loop` emits for a list of assignments, compared with executing
the assignments one after another.  Three things the hazard tests do not look at
decide whether the two agree (`FlatBatch.KeepsOrderWhen`): a symbol's value is
rendered right only if its array reads have no array read in their subscripts;
an indirect expression that recurs is evaluated at its first occurrence only;
and two tasklets of one state that write the same element are not ordered.
-/
import DaceFortran.Builder.FlatBatchRun

/-! ## When the batch keeps its order -/

/-- What the tests of the emission look at, as the statements go by: whether a
tasklet has been emitted, whether symbol assignments are pending, the indirect
expressions that have their symbol, and the names touched and the elements
written in the current state. -/
structure Track where
  started : Bool := false
  pending : Bool := false
  seen : List Expr := []
  touched : List Name := []
  written : List (Name × List ℤ) := []

/-- A new state. -/
def Track.fresh (k : Track) : Track := { k with pending := false, touched := [], written := [] }

/-- In source order a statement with an indirect expression not seen before
starts in a new state. -/
def Track.enter (sourceOrder : Bool) (k : Track) (a : Assign) : Track :=
  if sourceOrder && (indirectExprs a).any (fun x => decide (x ∉ k.seen)) then
    { k.fresh with seen := indirectExprs a ++ k.seen }
  else k

/-- Whether a compute statement gets a new state. -/
def Track.opens (b : SDFGBuilder) (serialise : Bool) (k : Track) (a : Assign) : Bool :=
  !k.started || k.pending || serialise ||
    (decide (a.target ∈ b.scalars) && decide (a.target ∈ k.touched))

/-- A compute statement in the current state, or in a new one. -/
def Track.compute (b : SDFGBuilder) (serialise : Bool) (I : Interp) (σ : Store) (k : Track)
    (a : Assign) : Track :=
  let k := if k.opens b serialise a then k.fresh else k
  { k with
    started := true
    touched := a.target :: a.connectors b ++ k.touched
    written := (a.target, Expr.evalList I σ a.subs) :: k.written }

/-- The next statement, executed in `σ`. -/
def Track.step (b : SDFGBuilder) (sourceOrder serialise : Bool) (I : Interp) (σ : Store) (k : Track)
    (a : Assign) : Track :=
  if a.target ∈ b.symbols then
    { k.enter sourceOrder a with pending := sourceOrder || (k.enter sourceOrder a).pending }
  else (k.enter sourceOrder a).compute b serialise I σ a

/-- The statement stays in the current state and writes an element already
written there. -/
def Track.Clobbers (b : SDFGBuilder) (sourceOrder serialise : Bool) (I : Interp) (σ : Store)
    (k : Track) (a : Assign) : Prop :=
  a.target ∉ b.symbols ∧ (k.enter sourceOrder a).opens b serialise a = false ∧
    (a.target, Expr.evalList I σ a.subs) ∈ (k.enter sourceOrder a).written

/-- In the source-order run from `σ`, no statement writes an element that an
earlier one of its state has written. -/
def NoClobber (b : SDFGBuilder) (sourceOrder serialise : Bool) (I : Interp) :
    Track → Store → List Assign → Prop
  | _, _, [] => True
  | k, σ, a :: as => ¬ k.Clobbers b sourceOrder serialise I σ a ∧
      NoClobber b sourceOrder serialise I (k.step b sourceOrder serialise I σ a) (a.exec I σ) as

/-- In the source-order run from `σ`, every indirect expression `x` has the value
`env x` whenever a statement uses it. -/
def IndirectsKeep (I : Interp) (env : Expr → ℤ) : Store → List Assign → Prop
  | _, [] => True
  | σ, a :: as => (∀ x ∈ indirectExprs a, x.eval I σ = env x) ∧ IndirectsKeep I env (a.exec I σ) as

/-- When the emitted chain computes what the source does. -/
structure FlatBatch.KeepsOrderWhen {b : SDFGBuilder} {gid : ℕ} (B : FlatBatch b gid) (I : Interp)
    (σ : Store) : Prop where
  flat : ∀ a ∈ B.symbolAssigns, a.value.Flat
  stable : B.sourceOrder = true → ∃ env, IndirectsKeep I env σ B.assigns
  distinct : NoClobber b B.sourceOrder B.serialise I {} σ B.assigns

/-! ## What the hazard tests rule out -/

variable {pairs : List (Name × Expr)} {done : List Assign}

theorem subset_hoistHazardRound {later : List Name} (hz : List Name) :
    hz ⊆ hoistHazardRound pairs later hz ∧
      ∀ p ∈ pairs, (∃ x ∈ p.2.idents, x ∈ later) → p.1 ∈ hoistHazardRound pairs later hz := by
  induction pairs generalizing hz with
  | nil => exact ⟨List.Subset.refl _, by simp⟩
  | cons p pairs ih =>
      have hround : hoistHazardRound (p :: pairs) later hz = hoistHazardRound pairs later
          (if p.1 ∉ hz ∧ (p.2.idents.any (fun x => decide (x ∈ later ∨ x ∈ hz))) = true then
            hz ++ [p.1] else hz) := rfl
      rw [hround]
      split_ifs with hp
      · obtain ⟨hsub, hrest⟩ := ih (hz ++ [p.1])
        refine ⟨fun x hx => hsub (List.mem_append_left _ hx), ?_⟩
        intro q hq hmeet
        rcases List.mem_cons.mp hq with rfl | hq
        · exact hsub (by simp)
        · exact hrest q hq hmeet
      · obtain ⟨hsub, hrest⟩ := ih hz
        refine ⟨hsub, ?_⟩
        intro q hq hmeet
        rcases List.mem_cons.mp hq with rfl | hq
        · obtain ⟨x, hx, hl⟩ := hmeet
          by_contra hnot
          exact hp ⟨fun h => hnot (hsub h), List.any_eq_true.mpr ⟨x, hx, by simp [hl]⟩⟩
        · exact hrest q hq hmeet

/-- No hazard: nothing hoisted reads what it is hoisted over. -/
theorem notMem_of_hoistHazardTargets {later : List Name}
    (h : hoistHazardTargets pairs later = []) {p : Name × Expr} (hp : p ∈ pairs) {x : Name}
    (hx : x ∈ p.2.idents) : x ∉ later := by
  intro hl
  have hiter : ∀ (n : ℕ) (hz : List Name), hz ⊆ (hoistHazardRound pairs later)^[n] hz := by
    intro n
    induction n with
    | zero => exact fun hz => List.Subset.refl hz
    | succ n ih =>
        exact fun hz => List.Subset.trans (subset_hoistHazardRound hz).1 (ih _)
  have hround : p.1 ∈ hoistHazardRound pairs later [] :=
    (subset_hoistHazardRound []).2 p hp ⟨x, hx, hl⟩
  have hlen : pairs.length = (pairs.length - 1) + 1 := by
    have := List.length_pos_of_mem hp
    omega
  unfold hoistHazardTargets at h
  rw [hlen, Function.iterate_succ_apply] at h
  have hmem := hiter (pairs.length - 1) _ hround
  rw [h] at hmem
  simp at hmem

variable {b : SDFGBuilder}

variable {assigns : List Assign} {I : Interp} {σ₀ : Store}

theorem pairwise_of_overwrittenAfterRead {read : List Name}
    (h : overwrittenAfterRead b read assigns = []) :
    (∀ s ∈ assigns, s.target ∈ b.symbols → s.target ∉ read) ∧
      assigns.Pairwise (fun c s => c.target ∉ b.symbols → s.target ∈ b.symbols →
        s.target ∉ c.readNames) := by
  induction assigns generalizing read with
  | nil => exact ⟨by simp, List.Pairwise.nil⟩
  | cons a as ih =>
      unfold overwrittenAfterRead at h
      rw [List.pairwise_cons]
      split_ifs at h with hsym hread
      · obtain ⟨hall, hpair⟩ := ih h
        refine ⟨?_, fun s _ hns => absurd hsym hns, hpair⟩
        intro s hs
        rcases List.mem_cons.mp hs with rfl | hs
        · exact fun _ => hread
        · exact hall s hs
      · obtain ⟨hall, hpair⟩ := ih h
        refine ⟨?_, ?_, hpair⟩
        · intro s hs hssym hmem
          rcases List.mem_cons.mp hs with rfl | hs
          · exact hsym hssym
          · exact hall s hs hssym (List.mem_append_right _ hmem)
        · exact fun s hs _ hssym hmem => hall s hs hssym (List.mem_append_left _ hmem)

theorem pairwise_of_readsAfterWrite {written : List Name}
    (h : readsAfterWrite written assigns = false) :
    (∀ a ∈ assigns, ∀ x ∈ a.readArrays, x ∉ written) ∧
      assigns.Pairwise (fun c a => ∀ x ∈ a.readArrays, x ∉ c.writeArrays) := by
  induction assigns generalizing written with
  | nil => exact ⟨by simp, List.Pairwise.nil⟩
  | cons a as ih =>
      unfold readsAfterWrite at h
      rw [Bool.or_eq_false_iff] at h
      obtain ⟨hall, hpair⟩ := ih h.2
      have ha : ∀ x ∈ a.readArrays, x ∉ written := by simpa using h.1
      rw [List.pairwise_cons]
      refine ⟨?_, ?_, hpair⟩
      · intro c hc x hx hmem
        rcases List.mem_cons.mp hc with rfl | hc
        · exact ha x hx hmem
        · exact hall c hc x hx (List.mem_append_right _ hmem)
      · exact fun c hc x hx hmem => hall c hc x hx (List.mem_append_left _ hmem)

/-- No sibling hazard: no two of the statements share an array as a read and a write. -/
theorem pairwise_of_siblingRwHazard (h : siblingRwHazard assigns = false) :
    assigns.Pairwise (fun c a => (∀ x ∈ a.readArrays, x ∉ c.writeArrays) ∧
      ∀ x ∈ c.readArrays, x ∉ a.writeArrays) := by
  unfold siblingRwHazard at h
  rw [Bool.or_eq_false_iff] at h
  have hforward := (pairwise_of_readsAfterWrite h.1).2
  have hbackward := (pairwise_of_readsAfterWrite h.2).2
  rw [List.pairwise_reverse] at hbackward
  exact List.pairwise_and_iff.mpr ⟨hforward, hbackward⟩

/-! ## What a statement names -/

mutual
theorem Expr.mem_tokens {x : Name} :
    ∀ e : Expr, x ∈ e.tokens → x ∈ e.atoms ∨ ∃ ac ∈ e.reads, ac.arrayName = x
  | .lit _, h => by simp [Expr.tokens] at h
  | .var _, h => Or.inl h
  | .load a subs, h => Or.inr
      ⟨⟨a, false, subs⟩, by simp [Expr.reads], (List.mem_singleton.mp h).symm⟩
  | .add a b, h => by
      simp only [Expr.tokens, List.mem_append, Expr.atoms, Expr.reads] at *
      rcases h with h | h
      · rcases Expr.mem_tokens a h with h | ⟨ac, hac, h⟩
        · exact Or.inl (Or.inl h)
        · exact Or.inr ⟨ac, Or.inl hac, h⟩
      · rcases Expr.mem_tokens b h with h | ⟨ac, hac, h⟩
        · exact Or.inl (Or.inr h)
        · exact Or.inr ⟨ac, Or.inr hac, h⟩
  | .app f args, h => by
      simp only [Expr.tokens, List.mem_cons, Expr.atoms, Expr.reads] at *
      rcases h with h | h
      · exact Or.inl (Or.inl h)
      · rcases Expr.mem_tokensList args h with h | h
        · exact Or.inl (Or.inr h)
        · exact Or.inr h
theorem Expr.mem_tokensList {x : Name} :
    ∀ es : List Expr, x ∈ Expr.tokensList es →
      x ∈ Expr.atomsList es ∨ ∃ ac ∈ Expr.readsList es, ac.arrayName = x
  | [], h => by simp [Expr.tokensList] at h
  | e :: es, h => by
      simp only [Expr.tokensList, List.mem_append, Expr.atomsList, Expr.readsList] at *
      rcases h with h | h
      · rcases Expr.mem_tokens e h with h | ⟨ac, hac, h⟩
        · exact Or.inl (Or.inl h)
        · exact Or.inr ⟨ac, Or.inl hac, h⟩
      · rcases Expr.mem_tokensList es h with h | ⟨ac, hac, h⟩
        · exact Or.inl (Or.inr h)
        · exact Or.inr ⟨ac, Or.inr hac, h⟩
end

mutual
theorem Expr.mem_idents {x : Name} :
    ∀ e : Expr, x ∈ e.idents → x ∈ e.tokens ∨ ∃ ac ∈ e.reads, x ∈ Expr.identsList ac.indexExprs
  | .lit _, h => by simp [Expr.idents] at h
  | .var _, h => Or.inl h
  | .load a subs, h => by
      simp only [Expr.idents, List.mem_cons, Expr.tokens, Expr.reads] at *
      rcases h with h | h
      · exact Or.inl (by simpa using h)
      · exact Or.inr ⟨⟨a, false, subs⟩, by simp, h⟩
  | .add a b, h => by
      simp only [Expr.idents, List.mem_append, Expr.tokens, Expr.reads] at *
      rcases h with h | h
      · rcases Expr.mem_idents a h with h | ⟨ac, hac, h⟩
        · exact Or.inl (Or.inl h)
        · exact Or.inr ⟨ac, Or.inl hac, h⟩
      · rcases Expr.mem_idents b h with h | ⟨ac, hac, h⟩
        · exact Or.inl (Or.inr h)
        · exact Or.inr ⟨ac, Or.inr hac, h⟩
  | .app f args, h => by
      simp only [Expr.idents, List.mem_cons, Expr.tokens, Expr.reads] at *
      rcases h with h | h
      · exact Or.inl (Or.inl h)
      · rcases Expr.mem_identsList_tokens args h with h | h
        · exact Or.inl (Or.inr h)
        · exact Or.inr h
theorem Expr.mem_identsList_tokens {x : Name} :
    ∀ es : List Expr, x ∈ Expr.identsList es →
      x ∈ Expr.tokensList es ∨ ∃ ac ∈ Expr.readsList es, x ∈ Expr.identsList ac.indexExprs
  | [], h => by simp [Expr.identsList] at h
  | e :: es, h => by
      simp only [Expr.identsList, List.mem_append, Expr.tokensList, Expr.readsList] at *
      rcases h with h | h
      · rcases Expr.mem_idents e h with h | ⟨ac, hac, h⟩
        · exact Or.inl (Or.inl h)
        · exact Or.inr ⟨ac, Or.inl hac, h⟩
      · rcases Expr.mem_identsList_tokens es h with h | ⟨ac, hac, h⟩
        · exact Or.inl (Or.inr h)
        · exact Or.inr ⟨ac, Or.inr hac, h⟩
end

variable {a : Assign} {k : Track}

/-- `_assign_read_names` has every name of the value and of the subscripts. -/
theorem Assign.mem_readNames {x : Name}
    (h : x ∈ a.value.idents ∨ x ∈ Expr.identsList a.subs) : x ∈ a.readNames := by
  unfold Assign.readNames
  rw [List.mem_append, List.mem_flatMap]
  rcases h with h | h
  · rcases Expr.mem_idents a.value h with h | ⟨ac, hac, h⟩
    · exact Or.inl h
    · exact Or.inr ⟨ac, List.mem_append_right _ hac, h⟩
  · refine Or.inr ⟨⟨a.target, true, a.subs⟩, ?_, h⟩
    have hne : a.subs ≠ [] := by
      rintro hnil
      simp [hnil, Expr.identsList] at h
    simp [Assign.accesses, hne]

mutual
/-- A name of an expression is left in its lifted form or stands in the
definition of one of its symbols. -/
theorem Expr.mem_idents_cover {m : IndirectSyms} {x : Name} :
    ∀ e : Expr, x ∈ e.idents →
      x ∈ (e.lift m).idents ∨ ∃ y ∈ e.loads, x ∈ (indirectToDace m y).idents
  | .lit _, h => by simp [Expr.idents] at h
  | .var _, h => Or.inl h
  | .load a subs, h => by
      have hdef : x ∈ (indirectToDace m (.load a subs)).idents ∨
          ∃ y ∈ Expr.loadsList subs, x ∈ (indirectToDace m y).idents := by
        simp only [Expr.idents, List.mem_cons, indirectToDace] at h ⊢
        rcases h with h | h
        · exact Or.inl (Or.inl h)
        · rcases Expr.mem_identsList_cover (m := m) subs h with h | h
          · exact Or.inl (Or.inr h)
          · exact Or.inr h
      rcases hdef with h | ⟨y, hy, h⟩
      · exact Or.inr ⟨_, by simp [Expr.loads_load], h⟩
      · exact Or.inr ⟨y, by simp [Expr.loads_load, hy], h⟩
  | .add a b, h => by
      simp only [Expr.idents, Expr.lift, List.mem_append, Expr.loads_add] at *
      rcases h with h | h
      · rcases Expr.mem_idents_cover (m := m) a h with h | ⟨y, hy, h⟩
        · exact Or.inl (Or.inl h)
        · exact Or.inr ⟨y, Or.inl hy, h⟩
      · rcases Expr.mem_idents_cover (m := m) b h with h | ⟨y, hy, h⟩
        · exact Or.inl (Or.inr h)
        · exact Or.inr ⟨y, Or.inr hy, h⟩
  | .app f args, h => by
      simp only [Expr.idents, Expr.lift, List.mem_cons, Expr.loads_app] at *
      rcases h with h | h
      · exact Or.inl (Or.inl h)
      · rcases Expr.mem_identsList_cover (m := m) args h with h | h
        · exact Or.inl (Or.inr h)
        · exact Or.inr h
theorem Expr.mem_identsList_cover {m : IndirectSyms} {x : Name} :
    ∀ es : List Expr, x ∈ Expr.identsList es →
      x ∈ Expr.identsList (Expr.liftList m es) ∨
        ∃ y ∈ Expr.loadsList es, x ∈ (indirectToDace m y).idents
  | [], h => by simp [Expr.identsList] at h
  | e :: es, h => by
      simp only [Expr.identsList, Expr.liftList, List.mem_append, Expr.loadsList_cons] at *
      rcases h with h | h
      · rcases Expr.mem_idents_cover (m := m) e h with h | ⟨y, hy, h⟩
        · exact Or.inl (Or.inl h)
        · exact Or.inr ⟨y, Or.inl hy, h⟩
      · rcases Expr.mem_identsList_cover (m := m) es h with h | ⟨y, hy, h⟩
        · exact Or.inl (Or.inr h)
        · exact Or.inr ⟨y, Or.inr hy, h⟩
end

/-! ## Statements of a batch -/

namespace FlatBatch

variable {gid : ℕ} (B : FlatBatch b gid) {a : Assign}

variable {B : FlatBatch b gid}

theorem target_old (ha : a ∈ B.assigns) : ¬ a.target.MintedFrom gid := by
  refine B.registered.old _ ?_
  rcases (B.wellFormed a ha).target_kind with ⟨h | h, -⟩ | ⟨h, -⟩
  · exact Or.inl h
  · exact Or.inr (Or.inr h)
  · exact Or.inr (Or.inl h)

theorem mem_symbolAssigns : a ∈ B.symbolAssigns ↔ a ∈ B.assigns ∧ a.target ∈ b.symbols := by
  simp [symbolAssigns]

theorem mem_computeAssigns : a ∈ B.computeAssigns ↔ a ∈ B.assigns ∧ a.target ∉ b.symbols := by
  simp [computeAssigns]

/-- A symbol is assigned without subscripts. -/
theorem subs_of_symbol (ha : a ∈ B.symbolAssigns) : a.subs = [] := by
  obtain ⟨ha, hs⟩ := B.mem_symbolAssigns.mp ha
  rcases (B.wellFormed a ha).target_kind with ⟨-, h⟩ | ⟨h, -⟩
  · exact h
  · exact absurd h (B.registered.symbols_arrays _ hs)

theorem fresh_indirectSyms : B.indirectSyms.Fresh gid := fresh_collectIndirect gid B.assigns

variable {x : Expr}

/-- The indirect expressions of a statement have symbols. -/
theorem mem_keys (ha : a ∈ B.assigns) (hx : x ∈ indirectExprs a) :
    x ∈ B.indirectSyms.map Prod.fst :=
  mem_keys_collectIndirect.mpr ⟨a, ha, hx⟩

theorem hasSyms (ha : a ∈ B.assigns) {ac : AccessInfo} (hac : ac ∈ a.accesses) :
    HasSyms B.indirectSyms (Expr.loadsList ac.indexExprs) :=
  fun _ hx => exists_lookup (mem_keys ha (mem_indirectExprs.mpr ⟨ac, hac, hx⟩))

/-- The write access of an array target. -/
theorem write_mem_accesses (h : a.subs ≠ []) :
    (⟨a.target, true, a.subs⟩ : AccessInfo) ∈ a.accesses := by
  simp [Assign.accesses, h]

theorem read_mem_accesses {ac : AccessInfo} (h : ac ∈ a.value.reads) : ac ∈ a.accesses :=
  List.mem_append_right _ h

/-- The reads of the subscripts of a statement are among its indirect expressions. -/
theorem mem_indirectExprs_subs (hx : x ∈ Expr.loadsList a.subs) : x ∈ indirectExprs a := by
  have hne : a.subs ≠ [] := by
    rintro h
    simp [h, Expr.loadsList, Expr.readsList] at hx
  exact mem_indirectExprs.mpr ⟨_, write_mem_accesses hne, hx⟩

/-- The names of an indirect expression are old. -/
theorem idents_old_of_indirect (ha : a ∈ B.assigns)
    (hx : x ∈ indirectExprs a) : ∀ y ∈ x.idents, ¬ y.MintedFrom gid := by
  intro y hy
  rcases idents_of_indirect hx hy with h | h
  · exact (B.wellFormed a ha).value_old y h
  · exact (B.wellFormed a ha).subs_old y h

/-- **A rendered compute statement is a well-behaved tasklet.** -/
theorem rendered (ha : a ∈ B.computeAssigns) :
    (a.render B.indirectSyms).Rendered b := by
  obtain ⟨ha, hns⟩ := B.mem_computeAssigns.mp ha
  have hwf := B.wellFormed a ha
  have hminted : ∀ {x : Name}, (∃ y, B.indirectSyms.lookup y = some x) → ¬ b.IsData x := by
    rintro x ⟨y, hy⟩ hd
    exact B.registered.old x (Or.inr hd) (mintedFrom_of_lookup B.fresh_indirectSyms hy)
  refine ⟨?_, ?_, ?_⟩
  · rcases hwf.target_kind with ⟨h | h, -⟩ | ⟨h, -⟩
    · exact absurd h hns
    · exact Or.inr h
    · exact Or.inl h
  · intro x hx hd
    by_cases hnil : a.subs = []
    · simp [Assign.render, hnil, Expr.liftList, Expr.identsList] at hx
    · have hac := write_mem_accesses hnil
      rcases Expr.mem_identsList_liftList a.subs (hasSyms ha hac) hx with h | h
      · obtain ⟨hs, harr⟩ := hwf.index_atoms _ hac x h
        exact hd.elim harr hs
      · exact hminted h hd
  · intro x hx hd
    rcases Expr.mem_idents_withMemlets a.value
      (fun ac hac => hasSyms ha (read_mem_accesses hac)) hx with h | ⟨ac, hac, h⟩ | h
    · rw [Assign.connectors_render, Assign.connectors, List.mem_filter]
      exact ⟨h, by simpa [SDFGBuilder.IsData] using hd⟩
    · obtain ⟨hs, harr⟩ := hwf.index_atoms ac (read_mem_accesses hac) x h
      exact absurd hd (not_or.mpr ⟨harr, hs⟩)
    · exact absurd hd (hminted h)

/-- An array among the connectors of a statement is one it reads. -/
theorem mem_readArrays (ha : a ∈ B.assigns) {x : Name}
    (hx : x ∈ a.connectors b) (harr : x ∈ b.arrays) : x ∈ a.readArrays := by
  rcases Expr.mem_tokens a.value (List.mem_filter.mp hx).1 with h | ⟨ac, hac, rfl⟩
  · exact absurd harr ((B.wellFormed a ha).value_atoms x h)
  · rw [Assign.readArrays, Assign.filter_accesses]
    exact List.mem_map.mpr ⟨ac, hac, rfl⟩

/-- An array target is written through an access. -/
theorem mem_writeArrays (ha : a ∈ B.assigns) (harr : a.target ∈ b.arrays) :
    a.target ∈ a.writeArrays := by
  have hne : a.subs ≠ [] := by
    rcases (B.wellFormed a ha).target_kind with ⟨h | h, -⟩ | ⟨-, h⟩
    · exact absurd harr (B.registered.symbols_arrays _ h)
    · exact absurd h (B.registered.arrays_scalars _ harr)
    · exact h
  exact List.mem_map.mpr ⟨_, List.mem_filter.mpr ⟨write_mem_accesses hne, rfl⟩, rfl⟩

end FlatBatch

/-! ## Following the source -/

/-- The emission has followed the source to the store `σ`: it runs in one way
only, ends in a store that agrees with `σ` on the names of the program, and its
symbols hold the values `env` gives them. -/
structure FlatBatch.Simulates {gid : ℕ} (B : FlatBatch b gid) (I : Interp) (env : Expr → ℤ)
    (σ₀ σ : Store) (e : Emission) : Prop where
  det : e.Det b I σ₀
  agrees : ∀ x, ¬ x.MintedFrom gid → e.exec I σ₀ x = σ x
  syms : ∀ x ∈ e.emitted, ∃ s, B.indirectSyms.lookup x = some s ∧ e.exec I σ₀ s [] = env x

namespace FlatBatch.Simulates

variable {gid : ℕ} {B : FlatBatch b gid} {I : Interp} {env : Expr → ℤ} {σ₀ σ : Store} {e : Emission}

/-- Writing an old name keeps the symbols. -/
theorem syms_write (h : B.Simulates I env σ₀ σ e) {t : Name} (ht : ¬ t.MintedFrom gid)
    (idx : List ℤ) (v : ℤ) :
    ∀ x ∈ e.emitted, ∃ s, B.indirectSyms.lookup x = some s ∧
      (e.exec I σ₀).write t idx v s [] = env x := by
  intro x hx
  obtain ⟨s, hs, hv⟩ := h.syms x hx
  refine ⟨s, hs, ?_⟩
  rw [Store.write_of_name_ne _ _ _ ?_, hv]
  rintro rfl
  exact ht (mintedFrom_of_lookup B.fresh_indirectSyms hs)

/-- The symbols hold the current values of the given reads. -/
theorem holdsSyms (h : B.Simulates I env σ₀ σ e) {loads : List Expr}
    (hl : ∀ x ∈ loads, x ∈ e.emitted ∧ x.eval I σ = env x) :
    HoldsSyms I B.indirectSyms σ (e.exec I σ₀) loads := by
  intro x hx
  obtain ⟨s, hs, hv⟩ := h.syms x (hl x hx).1
  exact ⟨s, hs, hv.trans (hl x hx).2.symm⟩

/-- Defining the symbol of one more indirect expression. -/
theorem define (h : B.Simulates I env σ₀ σ e) {x : Expr} (hkey : x ∈ B.indirectSyms.map Prod.fst)
    (hold : ∀ y ∈ x.idents, ¬ y.MintedFrom gid) (hx : x.eval I σ = env x)
    (hinner : ∀ y ∈ x.innerLoads, y ∈ e.emitted ∧ y.eval I σ = env y) :
    B.Simulates I env σ₀ σ (e.define B.indirectSyms x) ∧
      ∀ y, y ∈ (e.define B.indirectSyms x).emitted ↔ y = x ∨ y ∈ e.emitted := by
  by_cases hmem : x ∈ e.emitted
  · have hsame : e.define B.indirectSyms x = e := if_pos hmem
    rw [hsame]
    refine ⟨h, fun y => ⟨Or.inr, ?_⟩⟩
    rintro (rfl | hy)
    · exact hmem
    · exact hy
  · obtain ⟨s, hs⟩ := exists_lookup hkey
    have hexec := Emission.define_exec (I := I) (σ := σ₀) hmem hs
    have hemitted : ∀ y, y ∈ (e.define B.indirectSyms x).emitted ↔ y = x ∨ y ∈ e.emitted := by
      intro y
      rw [Emission.define_eq hmem hs]
      simp only [List.mem_cons]
      split_ifs <;> rfl
    have hminted := mintedFrom_of_lookup B.fresh_indirectSyms hs
    have hval : (indirectToDace B.indirectSyms x).eval I (e.exec I σ₀) = env x := by
      rw [eval_indirectToDace (h.holdsSyms hinner) (fun y hy => h.agrees y (hold y hy)), hx]
    refine ⟨⟨h.det.define hmem hs, ?_, ?_⟩, hemitted⟩
    · intro y hy
      rw [hexec, Store.set_of_ne _ _ ?_, h.agrees y hy]
      rintro rfl
      exact hy hminted
    · intro y hy
      rw [hexec, hval]
      rcases (hemitted y).mp hy with rfl | hy
      · exact ⟨s, hs, by simp⟩
      · obtain ⟨s', hs', hv'⟩ := h.syms y hy
        refine ⟨s', hs', ?_⟩
        rw [Store.set_of_ne _ _ ?_, hv']
        rintro rfl
        exact hmem (lookup_inj B.fresh_indirectSyms hs hs' ▸ hy)

/-- Defining the symbols of a list of indirect expressions, inner ones first. -/
theorem defines (h : B.Simulates I env σ₀ σ e) {l : List Expr} (hl : InnerFirst l)
    (hkey : ∀ x ∈ l, x ∈ B.indirectSyms.map Prod.fst)
    (hold : ∀ x ∈ l, ∀ y ∈ x.idents, ¬ y.MintedFrom gid) (hval : ∀ x ∈ l, x.eval I σ = env x) :
    B.Simulates I env σ₀ σ (l.foldl (Emission.define B.indirectSyms) e) ∧
      ∀ y, y ∈ (l.foldl (Emission.define B.indirectSyms) e).emitted ↔ y ∈ l ∨ y ∈ e.emitted := by
  -- the part already defined grows to the whole list
  have hgen : ∀ (rest done : List Expr) (e : Emission), done ++ rest = l →
      B.Simulates I env σ₀ σ e → (∀ x ∈ done, x ∈ e.emitted) →
      B.Simulates I env σ₀ σ (rest.foldl (Emission.define B.indirectSyms) e) ∧
        ∀ y, y ∈ (rest.foldl (Emission.define B.indirectSyms) e).emitted ↔
          y ∈ rest ∨ y ∈ e.emitted := by
    intro rest
    induction rest with
    | nil => exact fun done e _ h _ => ⟨h, by simp⟩
    | cons x rest ih =>
        intro done e hsplit h hdone
        have hmem : ∀ y, y ∈ done ∨ y = x → y ∈ l := by
          rintro y (hy | rfl) <;> rw [← hsplit]
          · exact List.mem_append_left _ hy
          · simp
        have hxl := hmem x (Or.inr rfl)
        obtain ⟨h', hem⟩ := h.define (hkey x hxl) (hold x hxl) (hval x hxl) (fun y hy => by
          have hyd := hl done x rest hsplit.symm y hy
          exact ⟨hdone y hyd, hval y (hmem y (Or.inl hyd))⟩)
        obtain ⟨h'', hem'⟩ := ih (done ++ [x]) _ (by simpa using hsplit) h' (fun y hy => by
          rcases List.mem_append.mp hy with hy | hy
          · exact (hem y).mpr (Or.inr (hdone y hy))
          · exact (hem y).mpr (Or.inl (List.mem_singleton.mp hy)))
        refine ⟨h'', fun y => ?_⟩
        rw [List.foldl_cons, hem', hem, List.mem_cons, ← or_assoc, or_comm (a := y ∈ rest)]
  exact hgen l [] e rfl h (by simp)

variable {a : Assign}

/-- A symbol assignment. -/
theorem assignSymbol (h : B.Simulates I env σ₀ σ e) (ha : a ∈ B.symbolAssigns)
    (hflat : a.value.Flat) :
    B.Simulates I env σ₀ (a.exec I σ) (e.assignSymbol a.target (arrayReadToDaceExpr a)) := by
  have hsubs := subs_of_symbol ha
  obtain ⟨hmem, -⟩ := B.mem_symbolAssigns.mp ha
  have hval : a.value.eval I (e.exec I σ₀) = a.value.eval I σ :=
    Expr.eval_congr I _ (fun x hx => h.agrees x ((B.wellFormed a hmem).value_old x hx))
  have hexec : (e.assignSymbol a.target (arrayReadToDaceExpr a)).exec I σ₀ =
      (e.exec I σ₀).set a.target (a.value.eval I σ) := by
    rw [arrayReadToDaceExpr_flat hflat, Emission.assignSymbol_exec, hval]
  have hemitted : (e.assignSymbol a.target (arrayReadToDaceExpr a)).emitted = e.emitted := by
    unfold Emission.assignSymbol
    split_ifs <;> rfl
  refine ⟨h.det.assignSymbol _ _, ?_, ?_⟩
  · intro x hx
    rw [hexec]
    have hsrc : a.exec I σ = σ.set a.target (a.value.eval I σ) := by
      rw [Assign.exec, hsubs]
      rfl
    rw [hsrc]
    by_cases hxt : x = a.target
    · subst hxt
      funext idx
      by_cases hidx : idx = []
      · subst hidx
        simp
      · rw [Store.set, Store.set, Store.write_of_ne _ _ (Or.inr hidx),
          Store.write_of_ne _ _ (Or.inr hidx), h.agrees _ hx]
    · rw [Store.set_of_ne _ _ hxt, Store.set_of_ne _ _ hxt, h.agrees x hx]
  · rw [hexec, hemitted]
    exact h.syms_write (target_old hmem) _ _

theorem close (h : B.Simulates I env σ₀ σ e) : B.Simulates I env σ₀ σ e.close := by
  refine ⟨h.det.close, ?_, ?_⟩ <;> rw [Emission.close_exec]
  · exact h.agrees
  · exact h.syms

/-- The elements a rendered statement addresses are those of the source. -/
theorem evalList_subs (h : B.Simulates I env σ₀ σ e) (ha : a ∈ B.assigns)
    (hind : ∀ x ∈ indirectExprs a, x ∈ e.emitted ∧ x.eval I σ = env x) :
    Expr.evalList I (e.exec I σ₀) (a.render B.indirectSyms).subs = Expr.evalList I σ a.subs :=
  Expr.evalList_liftList a.subs
    (h.holdsSyms (fun x hx => hind x (mem_indirectExprs_subs hx)))
    (fun x hx => h.agrees x ((B.wellFormed a ha).subs_old x hx))

/-- A compute statement, once its indirect expressions have their symbols. -/
theorem compute (h : B.Simulates I env σ₀ σ e) (ha : a ∈ B.computeAssigns)
    (opens : Bool) (hedge : opens = true ∨ e.edge = [])
    (hind : ∀ x ∈ indirectExprs a, x ∈ e.emitted ∧ x.eval I σ = env x)
    (hacc : opens = false → e.cur.Accepts b I (e.mid I σ₀) (a.render B.indirectSyms)) :
    B.Simulates I env σ₀ (a.exec I σ) (e.compute b B.indirectSyms opens a) := by
  obtain ⟨hmem, -⟩ := B.mem_computeAssigns.mp ha
  have hexec := Emission.compute_exec (b := b) (I := I) (m := B.indirectSyms)
    (σ := σ₀) opens a hedge
  have hsubs := h.evalList_subs hmem hind
  have hval : (a.value.withMemlets B.indirectSyms).eval I (e.exec I σ₀) = a.value.eval I σ :=
    Expr.eval_withMemlets a.value
      (fun ac hac => h.holdsSyms (fun x hx =>
        hind x (mem_indirectExprs.mpr ⟨ac, read_mem_accesses hac, hx⟩)))
      (fun x hx => h.agrees x ((B.wellFormed a hmem).value_old x hx))
  have hstep : (a.render B.indirectSyms).exec I (e.exec I σ₀) =
      (e.exec I σ₀).write a.target (Expr.evalList I σ a.subs) (a.value.eval I σ) := by
    rw [Assign.exec, hsubs]
    exact congrArg _ hval
  have hemitted : (e.compute b B.indirectSyms opens a).emitted = e.emitted := by
    unfold Emission.compute
    split_ifs <;> rfl
  refine ⟨h.det.compute opens (rendered ha) hacc, ?_, ?_⟩
  · intro x hx
    rw [hexec, hstep]
    unfold Assign.exec
    by_cases hxt : x = a.target
    · subst hxt
      funext idx
      unfold Store.write
      rw [h.agrees _ hx]
    · rw [Store.write_of_name_ne _ _ _ hxt, Store.write_of_name_ne _ _ _ hxt, h.agrees x hx]
  · rw [hexec, hstep, hemitted]
    exact h.syms_write (target_old hmem) _ _

end FlatBatch.Simulates

/-! ## The tests of the emission -/

/-- The track knows what the tests of the emission look at. -/
structure Track.Follows (b : SDFGBuilder) (I : Interp) (σ₀ : Store) (k : Track) (e : Emission) :
    Prop where
  pending : k.pending = !e.edge.isEmpty
  started : k.started = (e.computeI != 0)
  touched : k.pending = false → ∀ x ∈ b.scalars,
    (x ∈ k.touched ↔ ∃ t ∈ e.cur.tasklets, x = t.code.target ∨ x ∈ t.code.connectors b)
  written : k.pending = false → ∀ t ∈ e.cur.tasklets,
    (t.code.target, Expr.evalList I (e.mid I σ₀) t.code.subs) ∈ k.written

/-- The tasklets of the current state render statements of the list. -/
def Emission.Members (m : IndirectSyms) (done : List Assign) (e : Emission) : Prop :=
  ∀ t ∈ e.cur.tasklets, ∃ c ∈ done, t.code = c.render m

theorem Track.opens_eq_false {serialise : Bool}
    (h : k.opens b serialise a = false) :
    k.started = true ∧ k.pending = false ∧ serialise = false ∧
      (a.target ∈ b.scalars → a.target ∉ k.touched) := by
  simp only [Track.opens, Bool.or_eq_false_iff, Bool.not_eq_false', Bool.and_eq_false_iff,
    decide_eq_false_iff_not] at h
  obtain ⟨⟨⟨hstart, hpend⟩, hser⟩, hscalar⟩ := h
  exact ⟨hstart, hpend, hser, fun hs => hscalar.resolve_left (not_not.mpr hs)⟩

variable {e : Emission} {m : IndirectSyms}

/-- With no edge pending, elements are the same on entering the state and behind it. -/
theorem Emission.Det.evalList_mid (h : e.Det b I σ₀)
    (hedge : e.edge = []) {c : Assign} (hc : c.Rendered b) :
    Expr.evalList I (e.mid I σ₀) c.subs = Expr.evalList I (e.exec I σ₀) c.subs := by
  have hkeeps : Reorder.Keeps (fun σ (t : Tasklet) => t.code.exec I σ)
      (SameSymbols b (e.mid I σ₀)) e.cur.tasklets :=
    fun t ht s hP => (h.cur.rendered t ht).sameSymbols hP
  have hsame : SameSymbols b (e.mid I σ₀) (e.exec I σ₀) := by
    unfold Emission.exec
    rw [hedge]
    exact hkeeps.foldl (fun _ _ => rfl)
  exact (hc.evalList_subs hsame).symm

namespace FlatBatch.Simulates

variable {gid : ℕ} {B : FlatBatch b gid} {I : Interp} {env : Expr → ℤ} {σ₀ σ : Store} {e : Emission}

variable {done rest : List Assign}

/-- A statement the tests leave in the current state is one the state accepts. -/
theorem accepts (h : B.Simulates I env σ₀ σ e) {k : Track} (hk : k.Follows b I σ₀ e)
    {a : Assign} (hsplit : done ++ a :: rest = B.computeAssigns)
    (hmem : e.Members B.indirectSyms done)
    (hind : ∀ x ∈ indirectExprs a, x ∈ e.emitted ∧ x.eval I σ = env x)
    (hopens : k.opens b B.serialise a = false)
    (hnew : (a.target, Expr.evalList I σ a.subs) ∉ k.written) :
    e.cur.Accepts b I (e.mid I σ₀) (a.render B.indirectSyms) := by
  obtain ⟨-, hpend, hser, hscalar⟩ := Track.opens_eq_false hopens
  have ha : a ∈ B.computeAssigns := hsplit ▸ (by simp)
  have haB := (B.mem_computeAssigns.mp ha).1
  have hedge : e.edge = [] := by
    have := hk.pending
    rw [hpend] at this
    simpa using this
  refine ⟨?_, ?_, ?_⟩
  · intro hs t ht
    have hnot := (hk.touched hpend _ hs).not.mp (hscalar hs)
    exact ⟨fun heq => hnot ⟨t, ht, Or.inl heq⟩, fun hc => hnot ⟨t, ht, Or.inr hc⟩⟩
  · intro t ht
    obtain ⟨c, hc, hcode⟩ := hmem t ht
    have hcB : c ∈ B.assigns :=
      (B.mem_computeAssigns.mp (hsplit ▸ List.mem_append_left _ hc)).1
    have hpair := pairwise_of_siblingRwHazard hser
    rw [← hsplit] at hpair
    obtain ⟨hac, hca⟩ := (List.pairwise_append.mp hpair).2.2 c hc a List.mem_cons_self
    rw [hcode]
    simp only [Assign.render_target, Assign.connectors_render]
    exact ⟨fun harr hread => hac _ (mem_readArrays haB hread harr) (mem_writeArrays hcB harr),
      fun harr hread => hca _ (mem_readArrays hcB hread harr) (mem_writeArrays haB harr)⟩
  · intro t ht htarget heq
    refine hnew ?_
    have hw := hk.written hpend t ht
    rwa [heq, htarget, h.det.evalList_mid hedge (rendered ha), h.evalList_subs haB hind] at hw

/-- **One compute statement of either schedule.** -/
theorem track_compute (h : B.Simulates I env σ₀ σ e) {k : Track} (hk : k.Follows b I σ₀ e)
    {a : Assign} (hsplit : done ++ a :: rest = B.computeAssigns)
    (hmem : e.Members B.indirectSyms done)
    (hind : ∀ x ∈ indirectExprs a, x ∈ e.emitted ∧ x.eval I σ = env x) (opens : Bool)
    (hyes : k.opens b B.serialise a = true → opens = true ∨ (e.cur.tasklets = [] ∧ e.edge = []))
    (hno : k.opens b B.serialise a = false → opens = false ∧
      (a.target, Expr.evalList I σ a.subs) ∉ k.written) :
    B.Simulates I env σ₀ (a.exec I σ) (e.compute b B.indirectSyms opens a) ∧
      (k.compute b B.serialise I σ a).Follows b I σ₀ (e.compute b B.indirectSyms opens a) ∧
      (e.compute b B.indirectSyms opens a).Members B.indirectSyms (done ++ [a]) := by
  have ha : a ∈ B.computeAssigns := hsplit ▸ (by simp)
  have haB := (B.mem_computeAssigns.mp ha).1
  have hpend : k.opens b B.serialise a = false → k.pending = false :=
    fun ho => (Track.opens_eq_false ho).2.1
  -- the state the tasklet goes into
  have hedge : (if opens = true then e.close else e).edge = [] := by
    split_ifs with ho
    · rfl
    · cases hko : k.opens b B.serialise a with
      | true => exact ((hyes hko).resolve_left ho).2
      | false => simpa [hpend hko] using hk.pending
  have hdet := h.det.ite_close (opens = true)
  have hexec := Emission.ite_close_exec (I := I) (σ := σ₀) (e := e) (opens = true)
  have helem : Expr.evalList I ((if opens = true then e.close else e).mid I σ₀)
      (a.render B.indirectSyms).subs = Expr.evalList I σ a.subs := by
    rw [hdet.evalList_mid hedge (rendered ha), hexec, h.evalList_subs haB hind]
  have htasklets : (if opens = true then e.close else e).cur.tasklets =
      if k.opens b B.serialise a then [] else e.cur.tasklets := by
    cases hko : k.opens b B.serialise a with
    | true =>
        rcases hyes hko with ho | ho
        · simp [ho, Emission.close]
        · split_ifs <;> simp [Emission.close, ho.1]
    | false => simp [(hno hko).1]
  have hmid : k.opens b B.serialise a = false →
      (if opens = true then e.close else e).mid I σ₀ = e.mid I σ₀ := by
    intro hko
    simp [(hno hko).1]
  have hcur : (e.compute b B.indirectSyms opens a).cur.tasklets =
      (if k.opens b B.serialise a then [] else e.cur.tasklets) ++
        [⟨(if opens = true then e.close else e).computeI, a.render B.indirectSyms⟩] := by
    rw [← htasklets]
    rfl
  refine ⟨h.compute ha opens ?_ hind ?_, ⟨?_, ?_, ?_, ?_⟩, ?_⟩
  · by_cases ho : opens = true
    · exact Or.inl ho
    · exact Or.inr (by simpa [ho] using hedge)
  · intro ho
    cases hko : k.opens b B.serialise a with
    | true =>
        have htl := ((hyes hko).resolve_left (by simp [ho])).1
        exact ⟨by simp [htl], by simp [htl], by simp [htl]⟩
    | false => exact h.accepts hk hsplit hmem hind hko (hno hko).2
  · have hpendk : (k.compute b B.serialise I σ a).pending = false := by
      unfold Track.compute
      split_ifs with hko
      · rfl
      · exact hpend (by simpa using hko)
    have hedge' : (e.compute b B.indirectSyms opens a).edge = [] := hedge
    simp [hpendk, hedge']
  · have : (e.compute b B.indirectSyms opens a).computeI ≠ 0 := Nat.succ_ne_zero _
    simp [Track.compute, this]
  · intro _ x hx
    rw [hcur]
    cases hko : k.opens b B.serialise a with
    | true => simp [Track.compute, hko, Track.fresh]
    | false =>
        have ht := hk.touched (hpend hko) x hx
        simp only [Track.compute, hko, Bool.false_eq_true, if_false, List.cons_append,
          List.mem_cons, List.mem_append, ht, or_and_right, exists_or]
        simp only [List.not_mem_nil, or_false, exists_eq_left, Assign.render_target,
          Assign.connectors_render, false_and, exists_false]
        rw [← or_assoc, or_comm]
  · intro _ t ht
    rw [hcur, List.mem_append, List.mem_singleton] at ht
    have hmid' : (e.compute b B.indirectSyms opens a).mid I σ₀ =
        (if opens = true then e.close else e).mid I σ₀ := rfl
    rw [hmid']
    rcases ht with ht | rfl
    · cases hko : k.opens b B.serialise a with
      | true => simp [hko] at ht
      | false =>
          rw [hmid hko]
          have hw := hk.written (hpend hko) t (by simpa [hko] using ht)
          simp [Track.compute, hko, hw]
    · rw [helem]
      simp [Track.compute]
  · intro t ht
    rw [hcur, List.mem_append, List.mem_singleton] at ht
    rcases ht with ht | rfl
    · have ht' : t ∈ e.cur.tasklets := by
        split_ifs at ht
        · simp at ht
        · exact ht
      obtain ⟨c, hc, hcode⟩ := hmem t ht'
      exact ⟨c, List.mem_append_left _ hc, hcode⟩
    · exact ⟨a, by simp, rfl⟩

end FlatBatch.Simulates

/-! ## The source-order schedule -/

/-- Expressions that have their symbol are skipped. -/
theorem foldl_define_of_subset {l : List Expr}
    (h : ∀ x ∈ l, x ∈ e.emitted) : l.foldl (Emission.define m) e = e := by
  induction l with
  | nil => rfl
  | cons x l ih =>
      have hx : e.define m x = e := if_pos (h x List.mem_cons_self)
      rw [List.foldl_cons, hx]
      exact ih (fun y hy => h y (List.mem_cons_of_mem x hy))

theorem Emission.define_computeI (x : Expr) :
    (e.define m x).computeI = e.computeI := by
  by_cases hx : x ∈ e.emitted
  · simp [Emission.define, hx]
  · cases hs : m.lookup x with
    | none => simp [Emission.define, hx, hs]
    | some s =>
        rw [Emission.define_eq hx hs]
        dsimp only
        split_ifs <;> rfl

theorem foldl_define_computeI (l : List Expr) (e : Emission) :
    (l.foldl (Emission.define m) e).computeI = e.computeI := by
  induction l generalizing e with
  | nil => rfl
  | cons x l ih => rw [List.foldl_cons, ih, Emission.define_computeI]

/-- An empty state behind no pending edge is kept by a definition. -/
theorem Emission.define_empty (x : Expr) (hcur : e.cur = {})
    (hedge : e.edge = []) : (e.define m x).cur = {} ∧ (e.define m x).edge = [] := by
  unfold Emission.define
  split_ifs
  · exact ⟨hcur, hedge⟩
  · split
    · exact ⟨hcur, hedge⟩
    · exact ⟨rfl, hedge⟩

/-- A new symbol leaves an empty state behind. -/
theorem foldl_define_fresh {l : List Expr}
    (hkey : ∀ x ∈ l, x ∈ m.map Prod.fst)
    (h : (e.cur = {} ∧ e.edge = []) ∨ ∃ x ∈ l, x ∉ e.emitted) :
    (l.foldl (Emission.define m) e).cur = {} ∧ (l.foldl (Emission.define m) e).edge = [] := by
  induction l generalizing e with
  | nil =>
      rcases h with h | ⟨x, hx, -⟩
      · exact h
      · simp at hx
  | cons x l ih =>
      refine ih (fun y hy => hkey y (List.mem_cons_of_mem x hy)) ?_
      rcases h with ⟨hcur, hedge⟩ | ⟨y, hy, hnew⟩
      · exact Or.inl (Emission.define_empty x hcur hedge)
      · by_cases hx : x ∈ e.emitted
        · have hsame : e.define m x = e := if_pos hx
          rcases List.mem_cons.mp hy with rfl | hy
          · exact absurd hx hnew
          · rw [hsame]
            exact Or.inr ⟨y, hy, hnew⟩
        · obtain ⟨s, hs⟩ := exists_lookup (hkey x List.mem_cons_self)
          refine Or.inl ?_
          rw [Emission.define_eq hx hs]
          refine ⟨rfl, ?_⟩
          dsimp only
          split_ifs with he
          · exact he
          · rfl

/-- The track enters a statement as the emission does. -/
theorem Track.Follows.enter {gid : ℕ} {B : FlatBatch b gid}
    (hk : k.Follows b I σ₀ e) (hseen : ∀ x, x ∈ k.seen ↔ x ∈ e.emitted)
    (ha : a ∈ B.assigns) (hmem : e.Members B.indirectSyms done) :
    (k.enter true a).Follows b I σ₀ ((indirectExprs a).foldl (Emission.define B.indirectSyms) e) ∧
      ((indirectExprs a).foldl (Emission.define B.indirectSyms) e).Members B.indirectSyms done ∧
      ∀ x, x ∈ (k.enter true a).seen ↔ x ∈ indirectExprs a ∨ x ∈ e.emitted := by
  by_cases hall : ∀ x ∈ indirectExprs a, x ∈ e.emitted
  · have henter : k.enter true a = k := by
      refine if_neg ?_
      simpa [hseen] using hall
    rw [foldl_define_of_subset hall, henter]
    refine ⟨hk, hmem, fun x => ?_⟩
    rw [hseen]
    exact ⟨Or.inr, fun h => h.elim (hall x) id⟩
  · push Not at hall
    obtain ⟨hcur, hedge⟩ := foldl_define_fresh (e := e) (fun x hx => FlatBatch.mem_keys ha hx)
      (Or.inr hall)
    have henter : k.enter true a = { k.fresh with seen := indirectExprs a ++ k.seen } := by
      refine if_pos ?_
      obtain ⟨x, hx, hnew⟩ := hall
      simpa [hseen] using ⟨x, hx, hnew⟩
    rw [henter]
    refine ⟨⟨?_, ?_, ?_, ?_⟩, ?_, ?_⟩
    · simp [hedge, Track.fresh]
    · rw [foldl_define_computeI]
      exact hk.started
    · simp [hcur, Track.fresh]
    · simp [hcur]
    · simp [Emission.Members, hcur]
    · simp [hseen]

/-- In source order the emission opens a state when the track says so. -/
theorem Track.Follows.opens_eq
    (hk : k.Follows b I σ₀ e) (hnum : e.cur.Numbered b e.computeI) (serialise : Bool) (a : Assign) :
    (e.computeI == 0 || !e.edge.isEmpty || serialise || e.cur.scalarReassign b a) =
      k.opens b serialise a := by
  have hstart : (e.computeI == 0) = !k.started := by
    rw [hk.started]
    cases e.computeI <;> rfl
  rw [Track.opens, hstart, ← hk.pending]
  cases hpend : k.pending with
  | true => simp
  | false =>
      have hreassign : e.cur.scalarReassign b a =
          (decide (a.target ∈ b.scalars) && decide (a.target ∈ k.touched)) := by
        rw [Bool.eq_iff_iff, hnum.scalarReassign_iff]
        simp only [Bool.and_eq_true, decide_eq_true_eq]
        exact and_congr_right (fun hs => (hk.touched hpend _ hs).symm)
      rw [hreassign]

/-- A symbol assignment is left pending. -/
theorem Track.Follows.assignSymbol
    (hk : k.Follows b I σ₀ e) (tgt : Name) (rhs : Expr) :
    ({ k with pending := true } : Track).Follows b I σ₀ (e.assignSymbol tgt rhs) := by
  refine ⟨?_, ?_, by simp, by simp⟩
  · simp [Emission.assignSymbol]
  · have hidx : (e.assignSymbol tgt rhs).computeI = e.computeI := by
      unfold Emission.assignSymbol
      split_ifs <;> rfl
    rw [hidx]
    exact hk.started

theorem Emission.assignSymbol_emitted (tgt : Name) (rhs : Expr) :
    (e.assignSymbol tgt rhs).emitted = e.emitted := by
  unfold Emission.assignSymbol
  split_ifs <;> rfl

theorem Emission.compute_emitted (opens : Bool) (a : Assign) :
    (e.compute b m opens a).emitted = e.emitted := by
  unfold Emission.compute
  split_ifs <;> rfl

theorem Emission.Members.assignSymbol
    (h : e.Members m done) (tgt : Name) (rhs : Expr) : (e.assignSymbol tgt rhs).Members m done := by
  intro t ht
  unfold Emission.assignSymbol at ht
  split_ifs at ht
  · simp [Emission.close] at ht
  · exact h t ht

namespace FlatBatch

variable {gid : ℕ} {B : FlatBatch b gid} {I : Interp} {env : Expr → ℤ} {σ₀ : Store}

variable {done rest : List Assign} {σ : Store} {l : List Assign}

variable {e : Emission} {k : Track}

/-- The source-order schedule follows the source, statement by statement. -/
theorem simulates_statements (hflat : ∀ a ∈ B.symbolAssigns, a.value.Flat)
    (hsplit : done ++ rest = B.assigns)
    (h : B.Simulates I env σ₀ σ e) (hk : k.Follows b I σ₀ e)
    (hseen : ∀ x, x ∈ k.seen ↔ x ∈ e.emitted)
    (hmem : e.Members B.indirectSyms (done.filter (fun a => !decide (a.target ∈ b.symbols))))
    (hkeep : IndirectsKeep I env σ rest) (hclob : NoClobber b true B.serialise I k σ rest) :
    B.Simulates I env σ₀ (runSource I rest σ) (rest.foldl B.emitStatement e) := by
  induction rest generalizing done σ e k with
  | nil => exact h
  | cons a rest ih =>
      have ha : a ∈ B.assigns := hsplit ▸ (by simp)
      have hsplit' : (done ++ [a]) ++ rest = B.assigns := by simpa using hsplit
      obtain ⟨hval, hkeep'⟩ := hkeep
      obtain ⟨hstep, hclob'⟩ := hclob
      -- the symbols of the statement
      obtain ⟨h₁, hemitted⟩ := h.defines (innerFirst_indirectExprs a)
        (fun x hx => mem_keys ha hx) (fun x hx => idents_old_of_indirect ha hx) hval
      obtain ⟨hk₁, hmem₁, hseen₁⟩ := hk.enter hseen ha hmem
      have hstmt : B.emitStatement e a =
          let e₁ := (indirectExprs a).foldl (Emission.define B.indirectSyms) e
          if a.target ∈ b.symbols then e₁.assignSymbol a.target (arrayReadToDaceExpr a)
          else e₁.compute b B.indirectSyms (e₁.computeI == 0 || !e₁.edge.isEmpty || B.serialise ||
            e₁.cur.scalarReassign b a) a := rfl
      rw [List.foldl_cons, hstmt]
      have hind : ∀ x ∈ indirectExprs a,
          x ∈ ((indirectExprs a).foldl (Emission.define B.indirectSyms) e).emitted ∧
            x.eval I σ = env x :=
        fun x hx => ⟨(hemitted x).mpr (Or.inl hx), hval x hx⟩
      have hseen' : ∀ x, x ∈ (k.enter true a).seen ↔
          x ∈ ((indirectExprs a).foldl (Emission.define B.indirectSyms) e).emitted :=
        fun x => (hseen₁ x).trans (hemitted x).symm
      generalize (indirectExprs a).foldl (Emission.define B.indirectSyms) e = e₁ at *
      by_cases hsym : a.target ∈ b.symbols
      · have hk' : k.step b true B.serialise I σ a = { k.enter true a with pending := true } := by
          simp [Track.step, hsym]
        rw [hk'] at hclob'
        have hsymB : a ∈ B.symbolAssigns := B.mem_symbolAssigns.mpr ⟨ha, hsym⟩
        simp only [if_pos hsym]
        refine ih hsplit' (h₁.assignSymbol hsymB (hflat a hsymB))
          (hk₁.assignSymbol _ _) ?_ ?_ hkeep' hclob'
        · intro x
          rw [Emission.assignSymbol_emitted]
          exact hseen' x
        · rw [List.filter_append]
          simpa [hsym] using hmem₁.assignSymbol a.target (arrayReadToDaceExpr a)
      · have hk' : k.step b true B.serialise I σ a =
            (k.enter true a).compute b B.serialise I σ a := by
          simp [Track.step, hsym]
        rw [hk'] at hclob'
        have hcomp : done.filter (fun a => !decide (a.target ∈ b.symbols)) ++
            a :: rest.filter (fun a => !decide (a.target ∈ b.symbols)) = B.computeAssigns := by
          rw [computeAssigns, ← hsplit, List.filter_append, List.filter_cons]
          simp [hsym]
        have hopens := hk₁.opens_eq h₁.det.numbered B.serialise a
        simp only [if_neg hsym, hopens]
        obtain ⟨h₂, hk₂, hmem₂⟩ := h₁.track_compute hk₁ hcomp hmem₁ hind
          ((k.enter true a).opens b B.serialise a) Or.inl
          (fun ho => ⟨ho, fun hw => hstep ⟨hsym, ho, hw⟩⟩)
        refine ih hsplit' h₂ hk₂ ?_ ?_ hkeep' hclob'
        · intro x
          rw [Emission.compute_emitted, ← hseen' x]
          unfold Track.compute
          split_ifs <;> rfl
        · rw [List.filter_append]
          simpa [hsym] using hmem₂

theorem simulates_empty (σ : Store) : B.Simulates I env σ σ {} :=
  ⟨Emission.det_empty σ, fun _ _ => rfl, by simp⟩

theorem follows_empty (σ : Store) : ({} : Track).Follows b I σ {} :=
  ⟨rfl, rfl, by simp, by simp⟩

/-- **The source-order schedule follows the source.** -/
theorem simulates_sourceOrder (σ : Store) (hflat : ∀ a ∈ B.symbolAssigns, a.value.Flat)
    (hkeep : IndirectsKeep I env σ B.assigns)
    (hclob : NoClobber b true B.serialise I {} σ B.assigns) :
    B.Simulates I env σ (runSource I B.assigns σ) B.sourceOrderEmission ∧
      B.sourceOrderEmission.edge = [] := by
  have h := simulates_statements hflat (rfl : [] ++ B.assigns = B.assigns) (simulates_empty σ)
    (follows_empty σ) (by simp) (by simp [Emission.Members]) hkeep hclob
  simp only [sourceOrderEmission]
  split_ifs with hedge
  · exact ⟨h, hedge⟩
  · exact ⟨h.close, rfl⟩

/-! ## The fast schedule -/

/-- No hazard and no repeated symbol: nothing a hoisted assignment reads is
written by what it is hoisted over. -/
theorem not_sourceOrder (h : B.sourceOrder = false) :
    hoistHazardTargets B.symbolAssignPairs (B.computeAssigns.map Assign.target) = [] ∧
      hoistHazardTargets B.perSymAssigns
        (B.computeAssigns.map Assign.target ++ B.symbolAssignPairs.map Prod.fst) = [] ∧
      overwrittenAfterRead b [] B.assigns = [] := by
  simp only [sourceOrder, Bool.or_eq_false_iff, hazardous, Bool.not_eq_false',
    List.isEmpty_iff, List.append_eq_nil_iff] at h
  exact ⟨h.1.1.1, h.1.1.2, h.1.2⟩

/-- A symbol assignment commutes with the compute statements before it. -/
theorem pairwise_commute (h : B.sourceOrder = false) (hflat : ∀ a ∈ B.symbolAssigns, a.value.Flat) :
    B.assigns.Pairwise (fun c s => decide (c.target ∈ b.symbols) = false →
      decide (s.target ∈ b.symbols) = true →
        Reorder.CommuteOn (Assign.exec I) (fun _ => True) c s) := by
  obtain ⟨hpairs, -, hover⟩ := not_sourceOrder h
  refine (pairwise_of_overwrittenAfterRead hover).2.imp_of_mem ?_
  intro c s hc hs hread hcs hss σ _
  have hcs' : c.target ∉ b.symbols := by simpa using hcs
  have hss' : s.target ∈ b.symbols := by simpa using hss
  have hsB : s ∈ B.symbolAssigns := B.mem_symbolAssigns.mpr ⟨hs, hss'⟩
  have hcB : c ∈ B.computeAssigns := B.mem_computeAssigns.mpr ⟨hc, hcs'⟩
  have hnot := hread hcs' hss'
  refine Assign.exec_comm ?_ ?_ ?_ ?_ ?_
  · intro hmem
    have hpair : (s.target, arrayReadToDaceExpr s) ∈ B.symbolAssignPairs :=
      List.mem_map.mpr ⟨s, hsB, rfl⟩
    rw [arrayReadToDaceExpr_flat (hflat s hsB)] at hpair
    exact notMem_of_hoistHazardTargets hpairs hpair hmem (List.mem_map.mpr ⟨c, hcB, rfl⟩)
  · simp [subs_of_symbol hsB, Expr.identsList]
  · exact fun hmem => hnot (Assign.mem_readNames (Or.inl hmem))
  · exact fun hmem => hnot (Assign.mem_readNames (Or.inr hmem))
  · exact Or.inl (fun heq => hcs' (heq ▸ hss'))

/-- **Hoisting keeps the source order's result**, after any part of the body. -/
theorem runSource_hoisted (h : B.sourceOrder = false) (hflat : ∀ a ∈ B.symbolAssigns, a.value.Flat)
    (hsplit : done ++ rest = B.assigns) (σ : Store) :
    runSource I done σ = runSource I (done.filter (fun a => !decide (a.target ∈ b.symbols)))
      (runSource I (done.filter (fun a => decide (a.target ∈ b.symbols))) σ) := by
  have hpair := pairwise_commute (I := I) h hflat
  rw [← hsplit] at hpair
  exact Reorder.foldl_partition (P := fun _ => True) _ (fun _ _ _ _ => trivial)
    (List.pairwise_append.mp hpair).1 trivial

/-- Statements that do not name the data of `T` do not see a difference in it. -/
theorem runSource_congr {T : Name → Prop} {σ τ : Store}
    (hl : ∀ a ∈ l, ∀ x ∈ a.value.idents ++ Expr.identsList a.subs, ¬ T x)
    (h : ∀ x, ¬ T x → σ x = τ x) : ∀ x, ¬ T x → runSource I l σ x = runSource I l τ x := by
  induction l generalizing σ τ with
  | nil => exact h
  | cons a l ih =>
      refine ih (fun c hc => hl c (List.mem_cons_of_mem a hc)) ?_
      intro x hx
      have hval : a.value.eval I σ = a.value.eval I τ := Expr.eval_congr I _
        (fun y hy => h y (hl a List.mem_cons_self y (List.mem_append_left _ hy)))
      have hsubs : Expr.evalList I σ a.subs = Expr.evalList I τ a.subs := Expr.evalList_congr I _
        (fun y hy => h y (hl a List.mem_cons_self y (List.mem_append_right _ hy)))
      funext idx
      simp only [Assign.exec, Store.write, hval, hsubs, h x hx]

/-- Statements leave the data they do not target. -/
theorem runSource_frame {x : Name} (h : ∀ a ∈ l, a.target ≠ x) :
    runSource I l σ x = σ x := by
  induction l generalizing σ with
  | nil => rfl
  | cons a l ih =>
      have hrest : runSource I l (a.exec I σ) x = a.exec I σ x :=
        ih (fun c hc => h c (List.mem_cons_of_mem a hc))
      exact hrest.trans (σ.write_of_name_ne _ _ (h a List.mem_cons_self).symm)

/-- A compute statement addresses the same element when the symbol assignments
behind it are hoisted. -/
theorem evalList_subs_hoisted (h : B.sourceOrder = false)
    (hflat : ∀ a ∈ B.symbolAssigns, a.value.Flat) {a : Assign}
    (hsplit : done ++ a :: rest = B.assigns) (hns : a.target ∉ b.symbols) (σ : Store) :
    Expr.evalList I (runSource I done σ) a.subs =
      Expr.evalList I (runSource I (done.filter (fun a => !decide (a.target ∈ b.symbols)))
        (runSource I B.symbolAssigns σ)) a.subs := by
  let T : Name → Prop := fun x => ∃ s ∈ rest, s.target ∈ b.symbols ∧ s.target = x
  obtain ⟨-, -, hover⟩ := not_sourceOrder h
  have hpair := (pairwise_of_overwrittenAfterRead hover).2
  rw [← hsplit] at hpair
  have hnot : ∀ c, (c ∈ done ∨ c = a) → c.target ∉ b.symbols →
      ∀ x ∈ c.value.idents ++ Expr.identsList c.subs, ¬ T x := by
    rintro c hc hcs x hx ⟨s, hs, hss, rfl⟩
    have hread : s.target ∈ c.readNames := Assign.mem_readNames (List.mem_append.mp hx)
    rcases hc with hc | rfl
    · exact (List.pairwise_append.mp hpair).2.2 c hc s (List.mem_cons_of_mem a hs) hcs hss hread
    · exact (List.pairwise_cons.mp (List.pairwise_append.mp hpair).2.1).1 s hs hcs hss hread
  have hsyms : B.symbolAssigns = done.filter (fun a => decide (a.target ∈ b.symbols)) ++
      rest.filter (fun a => decide (a.target ∈ b.symbols)) := by
    rw [symbolAssigns, ← hsplit, List.filter_append, List.filter_cons]
    simp [hns]
  rw [runSource_hoisted h hflat hsplit σ, hsyms]
  refine Expr.evalList_congr I _ (fun x hx => ?_)
  refine runSource_congr (T := T) ?_ ?_ x (hnot a (Or.inr rfl) hns x (List.mem_append_right _ hx))
  · intro c hc
    rw [List.mem_filter] at hc
    exact hnot c (Or.inl hc.1) (by simpa using hc.2)
  · intro y hy
    have hframe : runSource I (rest.filter (fun a => decide (a.target ∈ b.symbols)))
        (runSource I (done.filter (fun a => decide (a.target ∈ b.symbols))) σ) y =
        runSource I (done.filter (fun a => decide (a.target ∈ b.symbols))) σ y := by
      refine runSource_frame (fun s hs heq => hy ⟨s, ?_, ?_, heq⟩)
      · exact (List.mem_filter.mp hs).1
      · simpa using (List.mem_filter.mp hs).2
    rw [← hframe]
    simp [runSource, List.foldl_append]

/-- The elements written stay apart when the symbol assignments are hoisted. -/
theorem noClobber_hoisted (h : B.sourceOrder = false)
    (hflat : ∀ a ∈ B.symbolAssigns, a.value.Flat)
    (hsplit : done ++ rest = B.assigns) (σ : Store)
    (hclob : NoClobber b false B.serialise I k (runSource I done σ) rest) :
    NoClobber b false B.serialise I k
      (runSource I (done.filter (fun a => !decide (a.target ∈ b.symbols)))
        (runSource I B.symbolAssigns σ))
      (rest.filter (fun a => !decide (a.target ∈ b.symbols))) := by
  induction rest generalizing done k with
  | nil => trivial
  | cons a rest ih =>
      obtain ⟨hstep, hrest⟩ := hclob
      have hnext : a.exec I (runSource I done σ) = runSource I (done ++ [a]) σ := by
        simp [runSource, List.foldl_append]
      rw [hnext] at hrest
      have hsplit' : (done ++ [a]) ++ rest = B.assigns := by simpa using hsplit
      have hih := ih hsplit' hrest
      by_cases hsym : a.target ∈ b.symbols
      · have hk : k.step b false B.serialise I (runSource I done σ) a = k := by
          simp [Track.step, hsym, Track.enter]
        rw [hk, List.filter_append] at hih
        simpa [hsym] using hih
      · have helem := evalList_subs_hoisted (I := I) h hflat hsplit hsym σ
        have hk : ∀ τ, Expr.evalList I τ a.subs = Expr.evalList I (runSource I done σ) a.subs →
            k.step b false B.serialise I τ a =
              k.step b false B.serialise I (runSource I done σ) a := by
          intro τ hτ
          simp only [Track.step, Track.compute, hτ]
        rw [List.filter_cons_of_pos (by simpa using hsym)]
        refine ⟨?_, ?_⟩
        · unfold Track.Clobbers
          rw [← helem]
          exact hstep
        · rw [hk _ helem.symm]
          rw [List.filter_append] at hih
          simpa [hsym, runSource, List.foldl_append] using hih

/-- Hoisted expressions name nothing the body assigns. -/
theorem idents_unassigned (h : B.sourceOrder = false) {c : Assign} (hc : c ∈ B.assigns) {x : Expr}
    (hx : x ∈ indirectExprs c) {y : Name} (hy : y ∈ x.idents) {a : Assign} (ha : a ∈ B.assigns) :
    a.target ≠ y := by
  rintro rfl
  obtain ⟨-, hpersym, -⟩ := not_sourceOrder h
  -- the name stands in the definition of `x` or of one of its inner expressions
  have hdef : ∃ z ∈ indirectExprs c, a.target ∈ (indirectToDace B.indirectSyms z).idents := by
    obtain ⟨ac, hac, hxl⟩ := mem_indirectExprs.mp hx
    have hclosed : ∀ z ∈ x.loads, z ∈ indirectExprs c := by
      intro z hz
      refine mem_indirectExprs.mpr ⟨ac, hac, ?_⟩
      obtain ⟨w, hw, rfl⟩ := List.mem_map.mp hxl
      rw [AccessInfo.text, Expr.loads_load, List.mem_append, List.mem_singleton] at hz
      rcases hz with hz | rfl
      · exact Expr.loadsList_closed ac.indexExprs hxl hz
      · exact hxl
    obtain ⟨w, hw, rfl⟩ := List.mem_map.mp hxl
    rcases Expr.mem_idents_cover (m := B.indirectSyms) _ hy with hmem | ⟨z, hz, hmem⟩
    · refine ⟨w.text, hx, ?_⟩
      obtain ⟨s, hs⟩ := exists_lookup (mem_keys hc hx)
      have hlift : (w.text.lift B.indirectSyms).idents = [s] := by
        rw [AccessInfo.text] at hs ⊢
        simp [Expr.lift, hs, Expr.idents]
      rw [hlift, List.mem_singleton] at hmem
      exact absurd (mintedFrom_of_lookup B.fresh_indirectSyms hs) (hmem ▸ target_old ha)
    · exact ⟨z, hclosed z hz, hmem⟩
  obtain ⟨z, hz, hmem⟩ := hdef
  obtain ⟨s, hs⟩ := exists_lookup (mem_keys hc hz)
  have hpair : (s, indirectToDace B.indirectSyms z) ∈ B.perSymAssigns :=
    List.mem_map.mpr ⟨(z, s), AssocLists.mem_of_lookup hs, rfl⟩
  refine notMem_of_hoistHazardTargets hpersym hpair hmem ?_
  by_cases hsym : a.target ∈ b.symbols
  · have hpairs : B.symbolAssignPairs.map Prod.fst = B.symbolAssigns.map Assign.target := by
      simp [symbolAssignPairs]
    rw [hpairs]
    exact List.mem_append_right _ (List.mem_map.mpr ⟨a, B.mem_symbolAssigns.mpr ⟨ha, hsym⟩, rfl⟩)
  · exact List.mem_append_left _ (List.mem_map.mpr ⟨a, B.mem_computeAssigns.mpr ⟨ha, hsym⟩, rfl⟩)

/-- Every indirect expression keeps its value through the body. -/
theorem indirectsKeep_of_fast (h : B.sourceOrder = false) (σ₀ : Store)
    (hl : ∀ a ∈ l, a ∈ B.assigns)
    (hσ : ∀ c ∈ B.assigns, ∀ x ∈ indirectExprs c, x.eval I σ = x.eval I σ₀) :
    IndirectsKeep I (fun x => x.eval I σ₀) σ l := by
  induction l generalizing σ with
  | nil => trivial
  | cons a l ih =>
      have ha := hl a List.mem_cons_self
      refine ⟨fun x hx => hσ a ha x hx, ih (fun c hc => hl c (List.mem_cons_of_mem a hc)) ?_⟩
      intro c hc x hx
      rw [← hσ c hc x hx]
      exact Expr.eval_congr I x (fun y hy =>
        σ.write_of_name_ne _ _ (idents_unassigned h hc hx hy ha).symm)

/-- Symbols are minted innermost first. -/
theorem innerFirst_keys : InnerFirst (B.indirectSyms.map Prod.fst) := by
  have happend : ∀ {l l' : List Expr}, InnerFirst l → InnerFirst l' → InnerFirst (l ++ l') := by
    intro l l' hl hl'
    have hgen : ∀ r d, d ++ r = l' → InnerFirst (l ++ d) → InnerFirst (l ++ l') := by
      intro r
      induction r with
      | nil =>
          rintro d rfl hd
          simpa using hd
      | cons x r ih =>
          intro d hd hinner
          refine ih (d ++ [x]) (by simpa using hd) ?_
          rw [← List.append_assoc]
          exact hinner.concat (fun y hy => List.mem_append_right _ (hl' d x r hd.symm y hy))
    exact hgen l' [] rfl (by simpa using hl)
  have hflat : ∀ l : List Assign, InnerFirst (l.flatMap indirectExprs) := by
    intro l
    induction l with
    | nil => exact innerFirst_nil
    | cons a l ih => exact happend (innerFirst_indirectExprs a) ih
  -- minting keeps first occurrences, and those still stand behind their inner expressions
  have hmint : ∀ (rest done : List Expr) (m : IndirectSyms), InnerFirst (done ++ rest) →
      (∀ x ∈ done, x ∈ m.map Prod.fst) → InnerFirst (m.map Prod.fst) →
      InnerFirst ((rest.foldl (IndirectSyms.mint gid) m).map Prod.fst) := by
    intro rest
    induction rest with
    | nil => exact fun _ _ _ _ h => h
    | cons x rest ih =>
        intro done m hinner hdone hm
        have hkeys : (m.mint gid x).map Prod.fst =
            if x ∈ m.map Prod.fst then m.map Prod.fst else m.map Prod.fst ++ [x] := by
          unfold IndirectSyms.mint
          split_ifs <;> simp
        refine ih (done ++ [x]) _ (by simpa using hinner) ?_ ?_ <;> rw [hkeys]
        · intro y hy
          rcases List.mem_append.mp hy with hy | hy <;> split_ifs with hx
          · exact hdone y hy
          · exact List.mem_append_left _ (hdone y hy)
          · rwa [List.mem_singleton.mp hy]
          · exact List.mem_append_right _ hy
        · split_ifs
          · exact hm
          · exact hm.concat (fun y hy => hdone y (hinner done x rest rfl y hy))
  exact hmint _ [] [] (hflat B.assigns) (by simp) innerFirst_nil

/-- Symbol assignments put on edges one after another. -/
theorem simulates_symbols (hflat : ∀ a ∈ B.symbolAssigns, a.value.Flat)
    (hl : ∀ a ∈ l, a ∈ B.symbolAssigns)
    (h : B.Simulates I env σ₀ σ e) :
    B.Simulates I env σ₀ (runSource I l σ)
      ((l.map (fun a => (a.target, arrayReadToDaceExpr a))).foldl
        (fun e p => e.assignSymbol p.1 p.2) e) := by
  induction l generalizing σ e with
  | nil => exact h
  | cons a l ih =>
      have ha := hl a List.mem_cons_self
      exact ih (fun c hc => hl c (List.mem_cons_of_mem a hc)) (h.assignSymbol ha (hflat a ha))

theorem foldl_assignSymbol_frame (l : List (Name × Expr)) (e : Emission) :
    (l.foldl (fun e p => e.assignSymbol p.1 p.2) e).emitted = e.emitted ∧
      (l.foldl (fun e p => e.assignSymbol p.1 p.2) e).computeI = e.computeI := by
  induction l generalizing e with
  | nil => exact ⟨rfl, rfl⟩
  | cons p l ih =>
      obtain ⟨hem, hidx⟩ := ih (e.assignSymbol p.1 p.2)
      have hidx' : (e.assignSymbol p.1 p.2).computeI = e.computeI := by
        unfold Emission.assignSymbol
        split_ifs <;> rfl
      exact ⟨hem.trans (Emission.assignSymbol_emitted _ _), hidx.trans hidx'⟩

/-- **The hoisted symbols** of the fast schedule. -/
theorem simulates_hoisted (hflat : ∀ a ∈ B.symbolAssigns, a.value.Flat) (σ : Store) :
    B.Simulates I (fun x => x.eval I σ) σ (runSource I B.symbolAssigns σ) B.hoistedEmission ∧
      B.hoistedEmission.edge = [] ∧ B.hoistedEmission.cur = {} ∧ B.hoistedEmission.computeI = 0 ∧
      ∀ x ∈ B.indirectSyms.map Prod.fst, x ∈ B.hoistedEmission.emitted := by
  unfold hoistedEmission
  split_ifs with hnone
  · have hsym : B.symbolAssigns = [] := List.map_eq_nil_iff.mp hnone.2
    have hkeys : B.indirectSyms = [] := List.map_eq_nil_iff.mp hnone.1
    rw [hsym, hkeys]
    exact ⟨simulates_empty σ, rfl, rfl, rfl, by simp⟩
  · have hold : ∀ x ∈ B.indirectSyms.map Prod.fst, ∀ y ∈ x.idents, ¬ y.MintedFrom gid := by
      intro x hx
      obtain ⟨a, ha, hxa⟩ := mem_keys_collectIndirect.mp hx
      exact idents_old_of_indirect ha hxa
    have h₀ : B.Simulates I (fun x => x.eval I σ) σ σ {} := simulates_empty σ
    obtain ⟨h₁, hem₁⟩ := h₀.defines innerFirst_keys (fun x hx => hx) hold (fun x _ => rfl)
    have h₂ := simulates_symbols hflat (fun a ha => ha) h₁
    obtain ⟨hem₂, hidx₂⟩ := foldl_assignSymbol_frame B.symbolAssignPairs
      ((B.indirectSyms.map Prod.fst).foldl (Emission.define B.indirectSyms) {})
    refine ⟨h₂.close, rfl, rfl, ?_, ?_⟩
    · exact hidx₂.trans (foldl_define_computeI _ _)
    · intro x hx
      have hmem := (hem₁ x).mpr (Or.inl hx)
      rw [← hem₂] at hmem
      exact hmem

/-- The tasklets of the fast schedule follow the source. -/
theorem simulates_computes (hsplit : done ++ rest = B.computeAssigns)
    (h : B.Simulates I env σ₀ σ e)
    (hk : k.Follows b I σ₀ e) (hedge : e.edge = []) (hfirst : e.computeI = 0 → e.cur.tasklets = [])
    (hmem : e.Members B.indirectSyms done)
    (hkeys : ∀ x ∈ B.indirectSyms.map Prod.fst, x ∈ e.emitted)
    (hkeep : IndirectsKeep I env σ rest) (hclob : NoClobber b false B.serialise I k σ rest) :
    B.Simulates I env σ₀ (runSource I rest σ) (rest.foldl (fun e a =>
        e.compute b B.indirectSyms
          (e.computeI != 0 && (B.serialise || e.cur.scalarReassign b a)) a) e) ∧
      (rest.foldl (fun e a =>
        e.compute b B.indirectSyms
          (e.computeI != 0 && (B.serialise || e.cur.scalarReassign b a)) a) e).edge = [] := by
  induction rest generalizing done σ e k with
  | nil => exact ⟨h, hedge⟩
  | cons a rest ih =>
      have ha : a ∈ B.computeAssigns := hsplit ▸ (by simp)
      obtain ⟨haB, hns⟩ := B.mem_computeAssigns.mp ha
      obtain ⟨hval, hkeep'⟩ := hkeep
      obtain ⟨hstep, hclob'⟩ := hclob
      have hk' : k.step b false B.serialise I σ a = k.compute b B.serialise I σ a := by
        simp [Track.step, Track.enter, hns]
      rw [hk'] at hclob'
      have hopens := hk.opens_eq h.det.numbered B.serialise a
      rw [hedge] at hopens
      obtain ⟨h', hk'', hmem'⟩ := h.track_compute hk hsplit hmem
        (fun x hx => ⟨hkeys x (mem_keys haB hx), hval x hx⟩)
        (e.computeI != 0 && (B.serialise || e.cur.scalarReassign b a))
        (fun ho => by
          by_cases hzero : e.computeI = 0
          · exact Or.inr ⟨hfirst hzero, hedge⟩
          · refine Or.inl ?_
            rw [← hopens] at ho
            simpa [hzero] using ho)
        (fun ho => by
          refine ⟨?_, fun hw => hstep ⟨hns, by simpa [Track.enter] using ho, hw⟩⟩
          rw [← hopens] at ho
          simp only [Bool.or_eq_false_iff] at ho
          simp [ho.1.2, ho.2])
      have hedge' : (e.compute b B.indirectSyms
          (e.computeI != 0 && (B.serialise || e.cur.scalarReassign b a)) a).edge = [] := by
        simp only [Emission.compute]
        split_ifs
        · rfl
        · exact hedge
      have hsplit' : (done ++ [a]) ++ rest = B.computeAssigns := by simpa using hsplit
      refine ih hsplit' h' hk'' hedge' (fun hz => ?_) hmem' ?_ hkeep' hclob'
      · exact absurd hz (Nat.succ_ne_zero _)
      · intro x hx
        rw [Emission.compute_emitted]
        exact hkeys x hx

/-- **The fast schedule follows the source.** -/
theorem simulates_fast (h : B.sourceOrder = false) (σ : Store)
    (hflat : ∀ a ∈ B.symbolAssigns, a.value.Flat)
    (hclob : NoClobber b false B.serialise I {} σ B.assigns) :
    B.Simulates I (fun x => x.eval I σ) σ (runSource I B.assigns σ) B.fastEmission ∧
      B.fastEmission.edge = [] := by
  obtain ⟨h₁, hedge, hcur, hidx, hkeys⟩ := simulates_hoisted (I := I) hflat σ
  have hkeep : IndirectsKeep I (fun x => x.eval I σ) (runSource I B.symbolAssigns σ)
      B.computeAssigns := by
    refine indirectsKeep_of_fast h σ (fun a ha => (B.mem_computeAssigns.mp ha).1) ?_
    intro c hc x hx
    refine Expr.eval_congr I x (fun y hy => runSource_frame (fun s hs => ?_))
    exact idents_unassigned h hc hx hy (B.mem_symbolAssigns.mp hs).1
  have hclob' := noClobber_hoisted h hflat (rfl : [] ++ B.assigns = B.assigns) σ hclob
  have hk : ({} : Track).Follows b I σ B.hoistedEmission := by
    refine ⟨by simp [hedge], by simp [hidx], by simp [hcur], by simp [hcur]⟩
  have hsource : runSource I B.assigns σ =
      runSource I B.computeAssigns (runSource I B.symbolAssigns σ) :=
    runSource_hoisted h hflat (List.append_nil B.assigns) σ
  rw [hsource]
  exact simulates_computes (rfl : [] ++ B.computeAssigns = B.computeAssigns) h₁ hk hedge
    (by simp [hcur])
    (by simp [Emission.Members, hcur]) hkeys hkeep hclob'

/-! ## The batch -/

/-- **The flat batch is sequential Fortran** from `σ`: the emitted chain runs, and
however its states are scheduled it leaves the store the source leaves, up to
the symbols it minted. -/
def RefinesSource (B : FlatBatch b gid) (I : Interp) (σ : Store) : Prop :=
  (∃ τ, ChainRuns I B.emitted σ τ) ∧
    ∀ τ, ChainRuns I B.emitted σ τ →
      ∀ x, ¬ x.MintedFrom gid → τ x = runSource I B.assigns σ x

/-- **The emitted chain computes what the source does**, whichever schedule is
chosen, when the batch meets `KeepsOrderWhen`. -/
theorem emitted_refinesSource (B : FlatBatch b gid) (I : Interp) (σ : Store)
    (h : B.KeepsOrderWhen I σ) : B.RefinesSource I σ := by
  have hsim : ∃ env, B.Simulates I env σ (runSource I B.assigns σ) B.emission ∧
      B.emission.edge = [] := by
    unfold emission
    cases hso : B.sourceOrder with
    | true =>
        obtain ⟨env, hkeep⟩ := h.stable hso
        have hclob := h.distinct
        rw [hso] at hclob
        exact ⟨env, simulates_sourceOrder σ h.flat hkeep hclob⟩
    | false =>
        have hclob := h.distinct
        rw [hso] at hclob
        exact ⟨_, simulates_fast hso σ h.flat hclob⟩
  obtain ⟨env, hsim, hedge⟩ := hsim
  have hruns : ∀ τ, ChainRuns I B.emitted σ τ ↔ τ = B.emission.exec I σ := by
    intro τ
    rw [emitted, chainRuns_append]
    simp only [hsim.det.chain, exists_eq_left, chainRuns_singleton,
      SDFGState.runs_iff hsim.det.cur]
    simp [Emission.exec, hedge, applyEdge]
  refine ⟨⟨_, (hruns _).mpr rfl⟩, fun τ hτ x hx => ?_⟩
  rw [(hruns τ).mp hτ]
  exact hsim.agrees x hx

end FlatBatch

/-! ## A gather loop -/

instance (sourceOrder serialise : Bool) (I : Interp) (σ : Store) (k : Track) (a : Assign) :
    Decidable (k.Clobbers b sourceOrder serialise I σ a) := by
  unfold Track.Clobbers
  infer_instance

instance NoClobber.decidable (sourceOrder serialise : Bool) (I : Interp) :
    ∀ (k : Track) (σ : Store) (l : List Assign),
      Decidable (NoClobber b sourceOrder serialise I k σ l)
  | _, _, [] => .isTrue trivial
  | k, σ, a :: as =>
      have := NoClobber.decidable sourceOrder serialise I (k.step b sourceOrder serialise I σ a)
        (a.exec I σ) as
      inferInstanceAs (Decidable (_ ∧ _))

namespace Gather

/-- Arrays `v` and `idx`, and the symbol `k`. -/
def builder : SDFGBuilder := { arrays := [.src "v", .src "idx"], symbols := [.src "k"] }

theorem registered : builder.Registered 0 := by
  refine ⟨by decide, by decide, by decide, ?_⟩
  intro x hx
  have hmem : x = .src "k" ∨ x = .src "v" ∨ x = .src "idx" := by
    simpa [builder, or_assoc] using hx
  rcases hmem with rfl | rfl | rfl <;> decide

/-- `v(idx(k)) = value`. -/
def scatter (value : ℤ) : Assign :=
  ⟨.src "v", [.load (.src "idx") [.var (.src "k")]], .lit value⟩

/-- `k = k + 1`. -/
def advance : Assign := ⟨.src "k", [], .add (.var (.src "k")) (.lit 1)⟩

theorem scatter_wellFormed (value : ℤ) : (scatter value).WellFormed builder 0 := by
  refine ⟨?_, ?_, ?_, ?_, ?_, ?_⟩ <;>
    simp [scatter, builder, Expr.idents, Expr.identsList, Name.MintedFrom, Expr.readsList,
      Expr.reads, Expr.atoms, Assign.accesses, Expr.atomsList]

theorem advance_wellFormed : advance.WellFormed builder 0 := by
  refine ⟨?_, ?_, ?_, ?_, ?_, ?_⟩ <;>
    simp [advance, builder, Expr.idents, Expr.identsList, Name.MintedFrom, Expr.readsList,
      Expr.reads, Expr.atoms, Assign.accesses]

/-- `v(idx(k)) = 7; k = k + 1`. -/
def once : FlatBatch builder 0 where
  assigns := [scatter 7, advance]
  registered := registered
  wellFormed := by
    intro a ha
    simp only [List.mem_cons, List.not_mem_nil, or_false] at ha
    rcases ha with rfl | rfl
    · exact scatter_wellFormed 7
    · exact advance_wellFormed

/-- `v(idx(k)) = 7; k = k + 1; v(idx(k)) = 9`. -/
def twice : FlatBatch builder 0 where
  assigns := [scatter 7, advance, scatter 9]
  registered := registered
  wellFormed := by
    intro a ha
    simp only [List.mem_cons, List.not_mem_nil, or_false] at ha
    rcases ha with rfl | rfl | rfl
    · exact scatter_wellFormed 7
    · exact advance_wellFormed
    · exact scatter_wellFormed 9

/-- `k` is one, `idx(i)` is `i` and `v` is zero. -/
def store : Store := fun x idx => if x = .src "idx" then idx.sum else if x = .src "k" then 1 else 0

theorem once_keepsOrderWhen : once.KeepsOrderWhen (fun _ _ => 0) store := by
  refine ⟨?_, fun _ => ⟨fun _ => 1, ?_⟩, by decide +kernel⟩
  · intro a ha
    have hadv : a = advance := by
      obtain ⟨hmem, hsym⟩ := once.mem_symbolAssigns.mp ha
      simp only [once, List.mem_cons, List.not_mem_nil, or_false] at hmem
      rcases hmem with rfl | rfl
      · exact absurd hsym (by decide)
      · rfl
    simp [hadv, advance, Expr.Flat, Expr.reads]
  · refine ⟨?_, ?_, trivial⟩
    · have hind : indirectExprs (scatter 7) = [.load (.src "idx") [.var (.src "k")]] := by decide
      simp [hind, Expr.eval, Expr.evalList, store]
    · have hind : indirectExprs advance = [] := by decide
      simp [hind]

end Gather

theorem FlatBatch.emitted_refinesSource_once :
    Gather.once.KeepsOrderWhen (fun _ _ => 0) Gather.store ∧
      Gather.once.RefinesSource (fun _ _ => 0) Gather.store :=
  ⟨Gather.once_keepsOrderWhen, Gather.once.emitted_refinesSource _ _ Gather.once_keepsOrderWhen⟩

/-- The symbol of `idx(k)` still has its first value when the second store uses
it: the source sets `v(2)` to nine, the chain leaves it zero. -/
theorem FlatBatch.not_refinesSource_twice :
    ¬ Gather.twice.RefinesSource (fun _ _ => 0) Gather.store := by
  rintro ⟨-, hall⟩
  have hruns : ChainRuns (fun _ _ => 0) Gather.twice.emitted Gather.store _ :=
    chainRuns_execChain (by decide +kernel)
  have hagree := congrFun (hall _ hruns (.src "v") (by decide)) [2]
  have hchain : execChain (fun _ _ => 0) Gather.twice.emitted Gather.store (.src "v") [2] = 0 := rfl
  have hsource : runSource (fun _ _ => 0) Gather.twice.assigns Gather.store (.src "v") [2] =
    9 := rfl
  rw [hchain, hsource] at hagree
  exact absurd hagree (by decide)
