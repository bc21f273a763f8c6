/-
# The regions of a nest select the branches of the nest

By induction over the nodes, with the cache of the region as the invariant: every cached
symbol holds the value of its condition, whose data no executed statement changes.  So the
regions execute the statements of the nest and every guard has the value of its
condition.  **A condition is staged on an execution where one in front of it holds
exactly where a chain is met that has, behind its first true condition, one that has to
be staged**: all conditions of a flattened chain are prepared in front of the block.
-/
import DaceFortran.Lib.AssocLists
import DaceFortran.Builder.ElseIfRuns

open List

namespace Conditionals

open Function

open Subscripts

variable {V : Type} {b : Builder} {M : Meaning V} {conds : List Cond}

/-! ## Control -/

variable {α : Type} {c : Cond} {nid : ℕ} {st : State V} {r : List Guard × CondCache × ℕ}
  {body orElse : List (Stmt V)}

theorem andThen_next {r : α × Outcome} (h : r.2 = .next) (k : α → α × Outcome) :
    andThen r k = k r.1 := by
  rw [andThen, h]

theorem andThen_left {r : α × Outcome} (h : r.2 ≠ .next) (k : α → α × Outcome) :
    andThen r k = r := by
  rw [andThen]
  split
  · contradiction
  · rfl

/-- What every iteration keeps, the loop keeps. -/
theorem iterate_keeps {P : α → Prop} {A : V → α → Prop} {step : V → α → α × Outcome}
    (h : ∀ v a, A v a → P a → P (step v a).1) :
    ∀ vs a, alongIterate A step vs a → P a → P (iterate step vs a).1 := by
  intro vs
  induction vs with
  | nil => exact fun a _ ha => ha
  | cons v vs ih =>
      intro a halong ha
      rw [iterate]
      split
      · exact h v a halong.1 ha
      · exact h v a halong.1 ha
      · rename_i hexit hreturned
        refine ih _ (halong.2 ?_) (h v a halong.1 ha)
        cases hout : (step v a).2 with
        | next => exact .inl rfl
        | cycle => exact .inr rfl
        | exit => exact absurd hout hexit
        | returned => exact absurd hout hreturned

/-- Two loops whose steps correspond correspond, and so do properties of their steps. -/
theorem iterate_related {α β : Type} {R : α → β → Prop} {f : V → α → α × Outcome}
    {g : V → β → β × Outcome} {A B : V → α → Prop} {C D : V → β → Prop}
    (h : ∀ v a c, R a c → D v c → R (f v a).1 (g v c).1 ∧ (f v a).2 = (g v c).2 ∧
      A v a ∧ (B v a ↔ C v c)) :
    ∀ vs a c, R a c → alongIterate D g vs c →
      R (iterate f vs a).1 (iterate g vs c).1 ∧
      (iterate f vs a).2 = (iterate g vs c).2 ∧
      alongIterate A f vs a ∧ (alongIterate B f vs a ↔ alongIterate C g vs c) := by
  intro vs
  induction vs with
  | nil => exact fun a c hR _ => ⟨hR, rfl, trivial, Iff.rfl⟩
  | cons v vs ih =>
      intro a c hR hD
      obtain ⟨hR', ho, hA, hBC⟩ := h v a c hR hD.1
      have hrest := fun hgoes => ih _ _ hR' (hD.2 hgoes)
      simp only [iterate, alongIterate, ho, hBC]
      cases hout : (g v c).2 with
      | next =>
        obtain ⟨hRi, hoi, hAi, hBCi⟩ := hrest (.inl hout)
        exact ⟨hRi, hoi, ⟨hA, fun _ => hAi⟩, by simp [hBCi]⟩
      | cycle =>
        obtain ⟨hRi, hoi, hAi, hBCi⟩ := hrest (.inr hout)
        exact ⟨hRi, hoi, ⟨hA, fun _ => hAi⟩, by simp [hBCi]⟩
      | exit => exact ⟨hR', rfl, ⟨hA, by simp⟩, by simp⟩
      | returned => exact ⟨hR', rfl, ⟨hA, by simp⟩, by simp⟩

/-! ## What a nest leaves alone -/

theorem Mem.set_of_ne (m : Mem V) {x y : Text} (h : x ≠ y) (v : V) :
    (m.set y v).store x = m.store x := by
  show update m.store y v x = m.store x
  exact update_of_ne h _ _

theorem condReuseKey_spec {text key : Text} (h : condReuseKey b text = some key) :
    key = text ∧ ∀ x ∈ condNames text, x ∉ b.writeSet := by
  rw [condReuseKey] at h
  split_ifs at h with hempty hany
  refine ⟨(Option.some.inj h).symm, fun x hx hw => hany ?_⟩
  rw [any_eq_true]
  exact ⟨x, hx, by simp [hw]⟩

theorem Watched.notMem_writeSet {x : Text} (h : Watched b conds x) : x ∉ b.writeSet := by
  obtain ⟨c, -, hkey, hx⟩ := h
  exact (condReuseKey_spec hkey).2 x hx

mutual
/-- Nodes that change no watched name leave it alone. -/
theorem exec_frame {x : Text} (hx : Watched b conds x) : ∀ (s : Stmt V) (m : Mem V),
    (∀ y ∈ writeSetOf s, y ∈ b.writeSet) → Counted b M conds s m →
    (exec M s m).1.store x = m.store x
  | .act a, m, _, hc => by
      rw [exec]
      exact hc x hx
  | .cond c body orElse, m, hw, hc => by
      have hbody : ∀ y ∈ routineWriteSet body, y ∈ b.writeSet := fun y hy =>
        hw y (by rw [writeSetOf]; simp [hy])
      have helse : ∀ y ∈ routineWriteSet orElse, y ∈ b.writeSet := fun y hy =>
        hw y (by rw [writeSetOf]; simp [hy])
      rw [Counted] at hc
      rw [exec]
      by_cases hholds : M.holds c.text m.store = true
      · rw [if_pos hholds] at hc ⊢
        exact execAll_frame hx body m hbody hc
      · rw [if_neg hholds] at hc ⊢
        exact execAll_frame hx orElse m helse hc
  | .loop iter values body, m, hw, hc => by
      have hiter : x ≠ iter := by
        rintro rfl
        exact hx.notMem_writeSet (hw x (by rw [writeSetOf]; exact mem_cons_self))
      have hbody : ∀ y ∈ routineWriteSet body, y ∈ b.writeSet := fun y hy =>
        hw y (by rw [writeSetOf]; exact mem_cons_of_mem iter hy)
      rw [Counted] at hc
      rw [exec]
      refine iterate_keeps (P := fun n => n.store x = m.store x) (fun v n hv hn => ?_) _ m hc rfl
      rw [execAll_frame hx body _ hbody hv, n.set_of_ne hiter, hn]

theorem execAll_frame {x : Text} (hx : Watched b conds x) : ∀ (ss : List (Stmt V)) (m : Mem V),
    (∀ y ∈ routineWriteSet ss, y ∈ b.writeSet) → CountedAll b M conds ss m →
    (execAll M ss m).1.store x = m.store x
  | [], _, _, _ => rfl
  | s :: ss, m, hw, hc => by
      have hws : ∀ y ∈ writeSetOf s, y ∈ b.writeSet := fun y hy =>
        hw y (by rw [routineWriteSet]; simp [hy])
      have hwss : ∀ y ∈ routineWriteSet ss, y ∈ b.writeSet := fun y hy =>
        hw y (by rw [routineWriteSet]; simp [hy])
      rw [CountedAll] at hc
      have hs := exec_frame hx s m hws hc.1
      rw [execAll]
      by_cases hnext : (exec M s m).2 = .next
      · rw [andThen_next hnext, execAll_frame hx ss _ hwss (hc.2 hnext), hs]
      · rw [andThen_left hnext, hs]
end

/-! ## The cache -/

/-- The symbols of the cache have been staged, and hold the values of conditions of the
routine that may be reused. -/
structure Sound (b : Builder) (M : Meaning V) (conds : List Cond) (cache : CondCache) (nid : ℕ)
    (st : State V) : Prop where
  lt : ∀ p ∈ cache, p.2 < nid
  key : ∀ p ∈ cache, condReuseKey b p.1 = some p.1 ∧ ∃ c ∈ conds, c.text = p.1
  right : ∀ p ∈ cache, st.syms p.2 = M.holds p.1 st.mem.store

theorem sound_nil (nid : ℕ) (st : State V) : Sound b M conds [] nid st :=
  ⟨by simp, by simp, by simp⟩

variable {cache : CondCache} {ss : List (Stmt V)}

theorem Sound.later {nid nid' : ℕ} {st st' : State V}
    (h : Sound b M conds cache nid st) (hnid : nid ≤ nid')
    (hsyms : ∀ k < nid, st'.syms k = st.syms k)
    (hstore : ∀ x, Watched b conds x → st'.mem.store x = st.mem.store x) :
    Sound b M conds cache nid' st' where
  lt p hp := Nat.lt_of_lt_of_le (h.lt p hp) hnid
  key := h.key
  right p hp := by
    rw [hsyms _ (h.lt p hp), h.right p hp]
    apply M.names
    intro x hx
    obtain ⟨hkey, c, hc, htext⟩ := h.key p hp
    exact (hstore x ⟨c, hc, by rw [htext]; exact hkey, by rw [htext]; exact hx⟩).symm

/-! ## The prepared conditions -/

/-- What one prepared condition is. -/
structure Prepared (b : Builder) (M : Meaning V) (conds : List Cond) (cache : CondCache) (nid : ℕ)
    (c : Cond) (st : State V) (r : Guard × CondCache × ℕ) : Prop where
  text : r.1.text = c.text
  staged : r.1.staged = isStaged b (cache.map Prod.fst) c
  keys : r.2.1.map Prod.fst = keysAfter b (cache.map Prod.fst) c
  le : nid ≤ r.2.2
  symbol : ∀ sym, r.1.symbol = some sym → sym < r.2.2
  mem : (st.stage M r.1).mem = st.mem
  frame : ∀ k < nid, (st.stage M r.1).syms k = st.syms k
  sound : Sound b M conds r.2.1 r.2.2 (st.stage M r.1)
  value : (st.stage M r.1).value M r.1 = M.holds c.text st.mem.store

theorem stage_fresh (st : State V) (text : Text) (nid : ℕ) :
    st.stage M ⟨text, some nid, true⟩ =
      { st with syms := update st.syms nid (M.holds text st.mem.store) } := rfl

/-- A condition staged into a fresh symbol. -/
theorem prepared_fresh {cache cache' : CondCache}
    (h : Sound b M conds cache nid st) (hc : c ∈ conds)
    (hcache : cache' = cache ∨
      ∃ key, condReuseKey b c.text = some key ∧ cache' = (key, nid) :: cache)
    (hstaged : isStaged b (cache.map Prod.fst) c = true)
    (hkeys : cache'.map Prod.fst = keysAfter b (cache.map Prod.fst) c) :
    Prepared b M conds cache nid c st (⟨c.text, some nid, true⟩, cache', nid + 1) := by
  have hframe : ∀ k < nid, (st.stage M ⟨c.text, some nid, true⟩).syms k = st.syms k := by
    intro k hk
    rw [stage_fresh]
    exact update_of_ne (by omega) _ _
  have hsound : Sound b M conds cache (nid + 1) (st.stage M ⟨c.text, some nid, true⟩) :=
    h.later (by omega) hframe fun x _ => rfl
  refine ⟨rfl, hstaged.symm, hkeys, Nat.le_succ nid, ?_, rfl, hframe, ?_, ?_⟩
  · intro sym hsym
    obtain rfl : nid = sym := Option.some.inj hsym
    exact Nat.lt_succ_self nid
  · rcases hcache with rfl | ⟨key, hkey, rfl⟩
    · exact hsound
    · obtain ⟨rfl, -⟩ := condReuseKey_spec hkey
      refine ⟨?_, ?_, ?_⟩
      · exact forall_mem_cons.2 ⟨Nat.lt_succ_self nid, hsound.lt⟩
      · exact forall_mem_cons.2 ⟨⟨hkey, c, hc, rfl⟩, hsound.key⟩
      · refine forall_mem_cons.2 ⟨?_, hsound.right⟩
        exact update_self _ _ _
  · exact update_self _ _ _

theorem prepareCondExpr_spec (c : Cond)
    (h : Sound b M conds cache nid st) (hc : c ∈ conds) :
    Prepared b M conds cache nid c st (prepareCondExpr b cache nid c) := by
  rw [prepareCondExpr]
  -- the cases of the function: a trivial text, a lifted one, a key that is in the cache or not
  split_ifs with htrivial hlifted
  · exact ⟨rfl, by simp [isStaged, htrivial], by simp [keysAfter, htrivial], Nat.le_refl _,
      by simp, rfl, fun _ _ => rfl, h, rfl⟩
  · exact prepared_fresh h hc (Or.inl rfl) (by simp [isStaged, htrivial, hlifted])
      (by simp [keysAfter, hlifted])
  · cases hkey : condReuseKey b c.text with
    | none =>
        exact prepared_fresh h hc (Or.inl rfl) (by simp [isStaged, htrivial, hlifted, hkey])
          (by simp [keysAfter, htrivial, hlifted, hkey])
    | some key =>
        dsimp only
        cases hlook : cache.lookup key with
        | none =>
            have hnot : (cache.map Prod.fst).contains key = false := by
              rw [lookup_eq_none_iff] at hlook
              rw [← Bool.not_eq_true, contains_iff_mem, mem_map]
              rintro ⟨p, hp, rfl⟩
              simpa using hlook p hp
            exact prepared_fresh h hc (Or.inr ⟨key, hkey, rfl⟩)
              (by simp only [isStaged, htrivial, hlifted, hkey, hnot]; rfl)
              (by simp only [keysAfter, htrivial, hlifted, hkey, hnot]; rfl)
        | some sym =>
            have hmem := AssocLists.mem_of_lookup hlook
            have hcontains : (cache.map Prod.fst).contains key = true := by
              rw [contains_iff_mem]
              exact mem_map_of_mem (f := Prod.fst) hmem
            obtain ⟨rfl, -⟩ := condReuseKey_spec hkey
            refine ⟨rfl, ?_, ?_, Nat.le_refl _, ?_, rfl, fun _ _ => rfl, h, ?_⟩
            · simp only [isStaged, htrivial, hlifted, hkey, hcontains]
              rfl
            · simp only [keysAfter, htrivial, hlifted, hkey, hcontains]
              rfl
            · intro s hs
              obtain rfl : sym = s := Option.some.inj hs
              exact h.lt _ hmem
            · exact h.right _ hmem

/-- What the prepared conditions of a chain are. -/
structure PreparedAll (b : Builder) (M : Meaning V) (conds : List Cond) (cache : CondCache)
    (nid : ℕ) (cs : List Cond) (st : State V) (r : List Guard × CondCache × ℕ) : Prop where
  plan : r.1.map (fun g => (g.text, g.staged)) = plan b (cache.map Prod.fst) cs
  keys : r.2.1.map Prod.fst = keysBehind b (cache.map Prod.fst) cs
  le : nid ≤ r.2.2
  mem : (st.stageAll M r.1).mem = st.mem
  frame : ∀ k < nid, (st.stageAll M r.1).syms k = st.syms k
  sound : Sound b M conds r.2.1 r.2.2 (st.stageAll M r.1)
  right : GuardsRight M r.1 st

theorem prepareAll_spec : ∀ (cs : List Cond) {cache : CondCache} {nid : ℕ} {st : State V},
    Sound b M conds cache nid st → (∀ c ∈ cs, c ∈ conds) →
    PreparedAll b M conds cache nid cs st (prepareAll b cs cache nid) := by
  intro cs
  induction cs with
  | nil =>
      intro cache nid st h _
      exact ⟨rfl, rfl, Nat.le_refl _, rfl, fun _ _ => rfl, h, by simp [GuardsRight, prepareAll]⟩
  | cons c cs ih =>
      intro cache nid st h hmem
      have hc := prepareCondExpr_spec c h (hmem c mem_cons_self)
      have hcs := ih hc.sound fun c' hc' => hmem c' (mem_cons_of_mem c hc')
      set g := prepareCondExpr b cache nid c with hg
      set gs := prepareAll b cs g.2.1 g.2.2 with hgs
      have hstage : st.stageAll M (g.1 :: gs.1) = (st.stage M g.1).stageAll M gs.1 := rfl
      have hall : prepareAll b (c :: cs) cache nid = (g.1 :: gs.1, gs.2) := rfl
      rw [hall]
      refine ⟨?_, ?_, Nat.le_trans hc.le hcs.le, ?_, ?_, hcs.sound, ?_⟩
      · rw [map_cons, plan, hcs.plan, hc.text, hc.staged, hc.keys]
      · rw [keysBehind, foldl_cons, ← hc.keys]
        exact hcs.keys
      · rw [hstage, hcs.mem, hc.mem]
      · intro k hk
        have hk' : k < g.2.2 := Nat.lt_of_lt_of_le hk hc.le
        rw [hstage, hcs.frame k hk', hc.frame k hk]
      · intro x hx
        rw [hstage]
        rcases mem_cons.1 hx with rfl | hx
        · rw [hc.text, ← hc.value, State.value, State.value]
          cases hsym : g.1.symbol with
          | none => rw [hcs.mem]
          | some sym => exact hcs.frame sym (hc.symbol sym hsym)
        · rw [hcs.right x hx, hc.mem]

/-! ## The counter -/

theorem prepareCondExpr_le (b : Builder) (cache : CondCache) (nid : ℕ) (c : Cond) :
    nid ≤ (prepareCondExpr b cache nid c).2.2 := by
  unfold prepareCondExpr
  split_ifs
  · exact Nat.le_refl nid
  · exact Nat.le_succ nid
  · split
    · exact Nat.le_succ nid
    · split
      · exact Nat.le_refl nid
      · exact Nat.le_succ nid

theorem prepareAll_le (b : Builder) (cs : List Cond) (cache : CondCache) (nid : ℕ) :
    nid ≤ (prepareAll b cs cache nid).2.2 := by
  induction cs generalizing cache nid with
  | nil => exact Nat.le_refl nid
  | cons c cs ih => exact Nat.le_trans (prepareCondExpr_le b cache nid c) (ih _ _)

theorem emitElse_tail (h : ∀ c body orElse, ss ≠ [.cond c body orElse])
    (nid : ℕ) : emitElse b ss nid = ([], emitNodes b ss [] nid) := by
  cases ss with
  | nil => rfl
  | cons s ss =>
      cases s <;> cases ss <;> first | rfl | exact absurd rfl (h _ _ _)

mutual
theorem emit_le (b : Builder) : ∀ (s : Stmt V) (cache : CondCache) (nid : ℕ),
    nid ≤ (emit b s cache nid).2.2
  | .act _, _, nid => Nat.le_refl nid
  | .cond c body orElse, cache, nid => by
      have hprepared := prepareAll_le b (c :: chainConds orElse) cache nid
      have hbody := emitNodes_le b body []
        ((prepareAll b (c :: chainConds orElse) cache nid).2.2 + 1)
      have helse := emitElse_le b orElse (emitNodes b body []
        ((prepareAll b (c :: chainConds orElse) cache nid).2.2 + 1)).2
      rw [emit]
      simp only
      omega
  | .loop _ _ body, _, nid => emitNodes_le b body [] nid

theorem emitNodes_le (b : Builder) : ∀ (ss : List (Stmt V)) (cache : CondCache) (nid : ℕ),
    nid ≤ (emitNodes b ss cache nid).2
  | [], _, nid => Nat.le_refl nid
  | s :: ss, cache, nid => Nat.le_trans (emit_le b s cache nid) (emitNodes_le b ss _ _)

theorem emitElse_le (b : Builder) : ∀ (ss : List (Stmt V)) (nid : ℕ),
    nid ≤ (emitElse b ss nid).2.2
  | [], nid => Nat.le_refl nid
  | [.cond _ body orElse], nid =>
      Nat.le_trans (emitNodes_le b body [] nid) (emitElse_le b orElse _)
  | [.act _], nid => Nat.le_refl nid
  | [.loop _ _ body], nid => emitNodes_le b body [] nid
  | s :: t :: ss, nid => by
      rw [emitElse_tail (by simp)]
      exact Nat.le_trans (emit_le b s [] nid) (emitNodes_le b (t :: ss) _ _)
end

/-! ## The nodes -/

/-- The region does what the nest does, with symbols from the counter on. -/
structure Follows (nid : ℕ) (st : State V) (r : State V × Outcome) (s : Mem V × Outcome) :
    Prop where
  mem : r.1.mem = s.1
  outcome : r.2 = s.2
  frame : ∀ k < nid, r.1.syms k = st.syms k

/-- A node is emitted as it should be. -/
def Emits (b : Builder) (M : Meaning V) (conds : List Cond) (s : Stmt V) : Prop :=
  (∀ x ∈ writeSetOf s, x ∈ b.writeSet) → (∀ c ∈ condsOf s, c ∈ conds) →
    ∀ cache nid st, Sound b M conds cache nid st → Counted b M conds s st.mem →
    (emit b s cache nid).2.1.map Prod.fst = keysOf b (cache.map Prod.fst) s ∧
    Follows nid st (run M (emit b s cache nid).1 st) (exec M s st.mem) ∧
    Sound b M conds (emit b s cache nid).2.1 (emit b s cache nid).2.2
      (run M (emit b s cache nid).1 st).1 ∧
    Along M (GuardsRight M) (emit b s cache nid).1 st ∧
    (Along M (StagesLazily M) (emit b s cache nid).1 st ↔
      Guarded b M s (cache.map Prod.fst) st.mem)

def EmitsAll (b : Builder) (M : Meaning V) (conds : List Cond) (ss : List (Stmt V)) : Prop :=
  (∀ x ∈ routineWriteSet ss, x ∈ b.writeSet) → (∀ c ∈ condsOfAll ss, c ∈ conds) →
    ∀ cache nid st, Sound b M conds cache nid st → CountedAll b M conds ss st.mem →
    Follows nid st (runAll M (emitNodes b ss cache nid).1 st) (execAll M ss st.mem) ∧
    AlongAll M (GuardsRight M) (emitNodes b ss cache nid).1 st ∧
    (AlongAll M (StagesLazily M) (emitNodes b ss cache nid).1 st ↔
      GuardedAll b M ss (cache.map Prod.fst) st.mem)

/-- The conditions of the chain, at the data. -/
def valuesAt (M : Meaning V) (σ : Text → V) (cs : List Cond) : List Bool :=
  cs.map fun c => M.holds c.text σ

def EmitsElse (b : Builder) (M : Meaning V) (conds : List Cond) (ss : List (Stmt V)) : Prop :=
  (∀ x ∈ routineWriteSet ss, x ∈ b.writeSet) → (∀ c ∈ condsOfAll ss, c ∈ conds) →
    ∀ nid st, CountedAll b M conds ss st.mem →
    Follows nid st
      (runFirst M (emitElse b ss nid).1 (valuesAt M st.mem.store (chainConds ss))
        (runAll M (emitElse b ss nid).2.1 st) st)
      (execAll M ss st.mem) ∧
    AlongFirst M (GuardsRight M) (emitElse b ss nid).1
      (valuesAt M st.mem.store (chainConds ss))
      (AlongAll M (GuardsRight M) (emitElse b ss nid).2.1 st) st ∧
    (AlongFirst M (StagesLazily M) (emitElse b ss nid).1
        (valuesAt M st.mem.store (chainConds ss))
        (AlongAll M (StagesLazily M) (emitElse b ss nid).2.1 st) st ↔
      GuardedElse b M ss st.mem)

theorem emits_act (a : Action V) : Emits b M conds (.act a) := by
  intro hw _ cache nid st h hcounted
  refine ⟨rfl, ⟨rfl, rfl, fun _ _ => rfl⟩, ?_, trivial, Iff.rfl⟩
  have hsyms : ∀ k < nid, ({ st with mem := st.mem.after a } : State V).syms k = st.syms k :=
    fun _ _ => rfl
  apply h.later (Nat.le_refl _) hsyms
  intro x hx
  rw [Counted] at hcounted
  exact hcounted x hx

theorem plan_fst (b : Builder) (cs : List Cond) :
    ∀ keys, (plan b keys cs).map Prod.fst = cs.map Cond.text := by
  induction cs with
  | nil => exact fun _ => rfl
  | cons c cs ih =>
      intro keys
      rw [plan, map_cons, ih, map_cons]

/-- The guards of a chain have the values of its conditions. -/
theorem PreparedAll.values {cs : List Cond}
    (h : PreparedAll b M conds cache nid cs st r) :
    r.1.map ((st.stageAll M r.1).value M) = valuesAt M st.mem.store cs := by
  have htexts : r.1.map Guard.text = cs.map Cond.text := by
    rw [← plan_fst b cs (cache.map Prod.fst), ← h.plan, map_map]
    rfl
  calc r.1.map ((st.stageAll M r.1).value M)
      = r.1.map fun g => M.holds g.text st.mem.store := map_congr_left h.right
    _ = (r.1.map Guard.text).map fun t => M.holds t st.mem.store := by
        rw [map_map]
        rfl
    _ = valuesAt M st.mem.store cs := by
        rw [htexts, map_map]
        rfl

/-- Conditions are staged lazily where the chain is guarded. -/
theorem PreparedAll.lazy_iff {cs : List Cond}
    (h : PreparedAll b M conds cache nid cs st r) :
    StagesLazily M r.1 st ↔ ChainGuarded b M (cache.map Prod.fst) cs st.mem.store := by
  rw [ChainGuarded, ← h.plan, pairwise_map]
  rfl

theorem emits_loop {iter : Text} {values : (Text → V) → List V} {body : List (Stmt V)}
    (hbody : EmitsAll b M conds body) : Emits b M conds (.loop iter values body) := by
  intro hw hcs cache nid st h hcounted
  have hwb : ∀ x ∈ routineWriteSet body, x ∈ b.writeSet := by
    intro x hx
    exact hw x (by rw [writeSetOf]; exact mem_cons_of_mem iter hx)
  have hcsb : ∀ c ∈ condsOfAll body, c ∈ conds := fun c hc => hcs c (by rw [condsOf]; exact hc)
  have hle := emitNodes_le b body [] nid
  have halong := hcounted
  rw [Counted] at halong
  obtain ⟨⟨hmem, hsyms⟩, hout, hright, hlazy⟩ := iterate_related
    (R := fun (a : State V) (c : Mem V) => a.mem = c ∧ ∀ k < nid, a.syms k = st.syms k)
    (f := fun v a => runAll M (emitNodes b body [] nid).1 (a.set iter v))
    (g := fun v c => execAll M body (c.set iter v))
    (A := fun v a => AlongAll M (GuardsRight M) (emitNodes b body [] nid).1 (a.set iter v))
    (B := fun v a => AlongAll M (StagesLazily M) (emitNodes b body [] nid).1 (a.set iter v))
    (C := fun v c => GuardedAll b M body [] (c.set iter v))
    (D := fun v c => CountedAll b M conds body (c.set iter v))
    (by
      rintro v a c ⟨rfl, hk⟩ hc
      obtain ⟨hf, hr, hl⟩ := hbody hwb hcsb [] nid (a.set iter v) (sound_nil nid _) hc
      exact ⟨⟨hf.mem, fun k hlt => (hf.frame k hlt).trans (hk k hlt)⟩, hf.outcome, hr, hl⟩)
    (values st.mem.store) st st.mem ⟨rfl, fun _ _ => rfl⟩ halong
  refine ⟨rfl, ⟨hmem, hout, hsyms⟩, ?_, hright, hlazy⟩
  apply h.later hle hsyms
  intro x hx
  have hframe := exec_frame (M := M) hx (.loop iter values body) st.mem hw hcounted
  rw [exec, ← hmem] at hframe
  exact hframe

theorem chainConds_tail (h : ∀ c body orElse, ss ≠ [.cond c body orElse]) :
    chainConds ss = [] := by
  unfold chainConds
  split
  · exact absurd rfl (h _ _ _)
  · rfl

/-- The conditions of a chain are conditions of its nodes. -/
theorem mem_condsOfAll_chain : ∀ (ss : List (Stmt V)) {c : Cond}, c ∈ chainConds ss →
    c ∈ condsOfAll ss
  | [.cond c' body orElse], c, h => by
      rw [chainConds] at h
      rw [condsOfAll, condsOf]
      rcases mem_cons.1 h with rfl | h
      · exact mem_append_left _ mem_cons_self
      · have hin := mem_condsOfAll_chain orElse h
        exact mem_append_left _ (mem_cons_of_mem _ (mem_append_right _ hin))
  | [], _, h => absurd h (by simp [chainConds])
  | [.act _], _, h => absurd h (by simp [chainConds])
  | [.loop _ _ _], _, h => absurd h (by simp [chainConds])
  | s :: t :: ss, _, h => by
      rw [chainConds_tail (by simp)] at h
      exact absurd h not_mem_nil

theorem emits_cond (hbody : EmitsAll b M conds body)
    (helse : EmitsElse b M conds orElse) : Emits b M conds (.cond c body orElse) := by
  intro hw hcs cache nid st h hcounted
  have hwb : ∀ x ∈ routineWriteSet body, x ∈ b.writeSet := by
    intro x hx
    exact hw x (by rw [writeSetOf]; simp [hx])
  have hwe : ∀ x ∈ routineWriteSet orElse, x ∈ b.writeSet := by
    intro x hx
    exact hw x (by rw [writeSetOf]; simp [hx])
  have hcsb : ∀ c ∈ condsOfAll body, c ∈ conds := fun c hc => hcs c (by rw [condsOf]; simp [hc])
  have hcse : ∀ c ∈ condsOfAll orElse, c ∈ conds := fun c hc => hcs c (by rw [condsOf]; simp [hc])
  have hchain : ∀ c' ∈ c :: chainConds orElse, c' ∈ conds := by
    refine forall_mem_cons.2 ⟨hcs c (by rw [condsOf]; exact mem_cons_self), fun c' hc' => ?_⟩
    exact hcse c' (mem_condsOfAll_chain orElse hc')
  have hp := prepareAll_spec (c :: chainConds orElse) h hchain
  set gs := prepareAll b (c :: chainConds orElse) cache nid with hgs
  set st' := st.stageAll M gs.1 with hst'
  rw [Counted] at hcounted
  set r := emitNodes b body [] (gs.2.2 + 1) with hr
  set rs := emitElse b orElse r.2 with hrs
  -- what is known of the branch that is taken
  have hthen : M.holds c.text st.mem.store = true →
      Follows (gs.2.2 + 1) st' (runAll M r.1 st') (execAll M body st.mem) ∧
        AlongAll M (GuardsRight M) r.1 st' ∧
        (AlongAll M (StagesLazily M) r.1 st' ↔ GuardedAll b M body [] st.mem) := by
    intro hc
    rw [if_pos hc] at hcounted
    have := hbody hwb hcsb [] (gs.2.2 + 1) st' (sound_nil _ _) (by rw [hp.mem]; exact hcounted)
    rwa [hp.mem] at this
  have hother : ¬ M.holds c.text st.mem.store = true →
      Follows r.2 st' (runFirst M rs.1 (valuesAt M st.mem.store (chainConds orElse))
          (runAll M rs.2.1 st') st') (execAll M orElse st.mem) ∧
        AlongFirst M (GuardsRight M) rs.1 (valuesAt M st.mem.store (chainConds orElse))
          (AlongAll M (GuardsRight M) rs.2.1 st') st' ∧
        (AlongFirst M (StagesLazily M) rs.1 (valuesAt M st.mem.store (chainConds orElse))
          (AlongAll M (StagesLazily M) rs.2.1 st') st' ↔ GuardedElse b M orElse st.mem) := by
    intro hc
    rw [if_neg hc] at hcounted
    have := helse hwe hcse r.2 st' (by rw [hp.mem]; exact hcounted)
    rwa [hp.mem] at this
  have hle₁ := emitNodes_le b body [] (gs.2.2 + 1)
  have hle₂ := emitElse_le b orElse r.2
  rw [← hr] at hle₁
  rw [← hrs] at hle₂
  have hemit : emit b (.cond c body orElse) cache nid =
      (.chain gs.1 (r.1 :: rs.1) rs.2.1, gs.2.1, rs.2.2) := rfl
  have hvalues : gs.1.map (st'.value M) =
      M.holds c.text st.mem.store :: valuesAt M st'.mem.store (chainConds orElse) := by
    rw [hp.values, hp.mem]
    rfl
  have hrun : run M (.chain gs.1 (r.1 :: rs.1) rs.2.1) st =
      if M.holds c.text st.mem.store then runAll M r.1 st'
      else runFirst M rs.1 (valuesAt M st'.mem.store (chainConds orElse))
        (runAll M rs.2.1 st') st' := by
    show runFirst M (r.1 :: rs.1) (gs.1.map (st'.value M)) (runAll M rs.2.1 st') st' = _
    rw [hvalues, runFirst]
  have halong : ∀ q, Along M q (.chain gs.1 (r.1 :: rs.1) rs.2.1) st ↔ q gs.1 st ∧
      if M.holds c.text st.mem.store then AlongAll M q r.1 st'
      else AlongFirst M q rs.1 (valuesAt M st'.mem.store (chainConds orElse))
        (AlongAll M q rs.2.1 st') st' := by
    intro q
    show (_ ∧ AlongFirst M q (r.1 :: rs.1) (gs.1.map (st'.value M)) _ st') ↔ _
    rw [hvalues, AlongFirst]
  have hfollows : Follows gs.2.2 st' (run M (.chain gs.1 (r.1 :: rs.1) rs.2.1) st)
      (exec M (.cond c body orElse) st.mem) := by
    rw [hrun, exec, hp.mem]
    split
    · rename_i hc
      obtain ⟨hf, -, -⟩ := hthen hc
      exact ⟨hf.mem, hf.outcome, fun k hk => hf.frame k (by omega)⟩
    · rename_i hc
      obtain ⟨hf, -, -⟩ := hother hc
      exact ⟨hf.mem, hf.outcome, fun k hk => hf.frame k (by omega)⟩
  rw [hemit]
  refine ⟨hp.keys, ⟨hfollows.mem, hfollows.outcome, ?_⟩, ?_, ?_, ?_⟩
  · intro k hk
    have hle := hp.le
    rw [hfollows.frame k (by omega), hp.frame k hk]
  · apply hp.sound.later (show gs.2.2 ≤ rs.2.2 by omega) hfollows.frame
    intro x hx
    rw [hfollows.mem, hp.mem]
    exact exec_frame hx (.cond c body orElse) st.mem hw (by rw [Counted]; exact hcounted)
  · rw [halong, hp.mem]
    refine ⟨hp.right, ?_⟩
    split
    · rename_i hc
      exact (hthen hc).2.1
    · rename_i hc
      exact (hother hc).2.1
  · rw [halong, Guarded, hp.lazy_iff, hp.mem]
    apply and_congr Iff.rfl
    split
    · rename_i hc
      exact (hthen hc).2.2
    · rename_i hc
      exact (hother hc).2.2

theorem emitsAll_nil : EmitsAll b M conds ([] : List (Stmt V)) := by
  intro _ _ cache nid st _ _
  exact ⟨⟨rfl, rfl, fun _ _ => rfl⟩, trivial, Iff.rfl⟩

theorem emitsAll_cons {s : Stmt V} (hs : Emits b M conds s)
    (hss : EmitsAll b M conds ss) : EmitsAll b M conds (s :: ss) := by
  intro hw hcs cache nid st h hcounted
  have hws : ∀ x ∈ writeSetOf s, x ∈ b.writeSet := by
    intro x hx
    exact hw x (by rw [routineWriteSet]; simp [hx])
  have hwss : ∀ x ∈ routineWriteSet ss, x ∈ b.writeSet := by
    intro x hx
    exact hw x (by rw [routineWriteSet]; simp [hx])
  have hcss : ∀ c ∈ condsOfAll ss, c ∈ conds := fun c hc => hcs c (by rw [condsOfAll]; simp [hc])
  rw [CountedAll] at hcounted
  obtain ⟨hkeys, hf, hsound, hr, hl⟩ :=
    hs hws (fun c hc => hcs c (by rw [condsOfAll]; simp [hc])) cache nid st h hcounted.1
  have hle := emit_le b s cache nid
  set e := emit b s cache nid with he
  set es := emitNodes b ss e.2.1 e.2.2 with hes
  have hemit : emitNodes b (s :: ss) cache nid = (e.1 :: es.1, es.2) := rfl
  have hrun : runAll M (e.1 :: es.1) st = andThen (run M e.1 st) (runAll M es.1) := rfl
  -- what is known of the other nodes, where they are reached
  have hrest : (exec M s st.mem).2 = .next →
      Follows e.2.2 (run M e.1 st).1 (runAll M es.1 (run M e.1 st).1)
          (execAll M ss (exec M s st.mem).1) ∧
        AlongAll M (GuardsRight M) es.1 (run M e.1 st).1 ∧
        (AlongAll M (StagesLazily M) es.1 (run M e.1 st).1 ↔
          GuardedAll b M ss (keysOf b (cache.map Prod.fst) s) (exec M s st.mem).1) := by
    intro hnext
    have := hss hwss hcss e.2.1 e.2.2 _ hsound (by rw [hf.mem]; exact hcounted.2 hnext)
    rwa [hf.mem, hkeys] at this
  rw [hemit]
  refine ⟨?_, ⟨hr, fun hnext => (hrest (by rw [← hf.outcome]; exact hnext)).2.1⟩, ?_⟩
  · show Follows nid st (runAll M (e.1 :: es.1) st) (execAll M (s :: ss) st.mem)
    rw [hrun, execAll]
    by_cases hnext : (exec M s st.mem).2 = .next
    · obtain ⟨hf', -, -⟩ := hrest hnext
      rw [andThen_next hnext, andThen_next (hf.outcome.trans hnext)]
      refine ⟨hf'.mem, hf'.outcome, fun k hk => ?_⟩
      rw [hf'.frame k (by omega), hf.frame k hk]
    · rw [andThen_left hnext, andThen_left (by rw [hf.outcome]; exact hnext)]
      exact hf
  · show (Along M _ e.1 st ∧ ((run M e.1 st).2 = .next → AlongAll M _ es.1 (run M e.1 st).1)) ↔ _
    rw [GuardedAll, hl, hf.outcome]
    refine and_congr_right fun _ => forall_congr' fun hnext => ?_
    exact (hrest hnext).2.2

theorem guardedElse_tail (h : ∀ c body orElse, ss ≠ [.cond c body orElse])
    (m : Mem V) : GuardedElse b M ss m ↔ GuardedAll b M ss [] m := by
  cases ss with
  | nil => exact Iff.rfl
  | cons s ss =>
      cases s <;> cases ss <;> first | exact Iff.rfl | exact absurd rfl (h _ _ _)

/-- An else body that is no lone conditional is emitted into a region of its own. -/
theorem emitsElse_tail (hss : EmitsAll b M conds ss)
    (h : ∀ c body orElse, ss ≠ [.cond c body orElse]) : EmitsElse b M conds ss := by
  intro hw hcs nid st hcounted
  obtain ⟨hf, hr, hl⟩ := hss hw hcs [] nid st (sound_nil nid st) hcounted
  rw [emitElse_tail h, chainConds_tail h, guardedElse_tail h]
  exact ⟨hf, hr, hl⟩

theorem emitsElse_cond (hbody : EmitsAll b M conds body)
    (helse : EmitsElse b M conds orElse) : EmitsElse b M conds [.cond c body orElse] := by
  intro hw hcs nid st hcounted
  have hwb : ∀ x ∈ routineWriteSet body, x ∈ b.writeSet := by
    intro x hx
    exact hw x (by rw [routineWriteSet, writeSetOf]; simp [hx])
  have hwe : ∀ x ∈ routineWriteSet orElse, x ∈ b.writeSet := by
    intro x hx
    exact hw x (by rw [routineWriteSet, writeSetOf]; simp [hx])
  have hcsb : ∀ c ∈ condsOfAll body, c ∈ conds := fun c hc =>
    hcs c (by rw [condsOfAll, condsOf]; simp [hc])
  have hcse : ∀ c ∈ condsOfAll orElse, c ∈ conds := fun c hc =>
    hcs c (by rw [condsOfAll, condsOf]; simp [hc])
  rw [CountedAll, Counted] at hcounted
  have hcounted := hcounted.1
  have hle := emitNodes_le b body [] nid
  set r := emitNodes b body [] nid with hr
  set rs := emitElse b orElse r.2 with hrs
  have hemit : emitElse b [.cond c body orElse] nid = (r.1 :: rs.1, rs.2) := rfl
  have hconds : valuesAt M st.mem.store (chainConds [.cond c body orElse]) =
      M.holds c.text st.mem.store :: valuesAt M st.mem.store (chainConds orElse) := by
    rw [chainConds]
    rfl
  have hexec : execAll M [.cond c body orElse] st.mem =
      if M.holds c.text st.mem.store then execAll M body st.mem
      else execAll M orElse st.mem := by
    rw [execAll, exec]
    cases hout : (if M.holds c.text st.mem.store then execAll M body st.mem
      else execAll M orElse st.mem) with
    | mk m o =>
        cases o <;> rfl
  rw [hemit, hconds, hexec]
  simp only [runFirst, AlongFirst, GuardedElse]
  by_cases hc : M.holds c.text st.mem.store = true
  · simp only [if_pos hc] at hcounted ⊢
    exact hbody hwb hcsb [] nid st (sound_nil _ _) hcounted
  · simp only [if_neg hc] at hcounted ⊢
    obtain ⟨hf, hr, hl⟩ := helse hwe hcse r.2 st hcounted
    exact ⟨⟨hf.mem, hf.outcome, fun k hk => hf.frame k (by omega)⟩, hr, hl⟩

mutual
theorem emits : ∀ s : Stmt V, Emits b M conds s
  | .act a => emits_act a
  | .cond _ body orElse => emits_cond (emitsAll body) (emitsElse orElse)
  | .loop _ _ body => emits_loop (emitsAll body)

theorem emitsAll : ∀ ss : List (Stmt V), EmitsAll b M conds ss
  | [] => emitsAll_nil
  | s :: ss => emitsAll_cons (emits s) (emitsAll ss)

theorem emitsElse : ∀ ss : List (Stmt V), EmitsElse b M conds ss
  | [] => emitsElse_tail emitsAll_nil (by simp)
  | [.cond _ body orElse] => emitsElse_cond (emitsAll body) (emitsElse orElse)
  | [.act a] => emitsElse_tail (emitsAll_cons (emits_act a) emitsAll_nil) (by simp)
  | [.loop _ _ body] =>
      emitsElse_tail (emitsAll_cons (emits_loop (emitsAll body)) emitsAll_nil) (by simp)
  | s :: t :: ss =>
      emitsElse_tail (emitsAll_cons (emits s) (emitsAll_cons (emits t) (emitsAll ss))) (by simp)
end

/-- `x > 0` -/
def positiveX : Cond := ⟨['x', ' ', '>', ' ', '0'], []⟩

def setY : Action ℤ := ⟨some ['y'], [], [], fun σ => update σ ['y'] 1, .next⟩

/-- `IF (x > 0) ...; y = 1; IF (x > 0) ...` -/
def reuseNest : List (Stmt ℤ) := [.cond positiveX [] [], .act setY, .cond positiveX [] []]

def isXOrY (x : Text) : Bool := decide (x = ['x'] ∨ x = ['y'])

/-- The condition compares `x`. -/
def signMeaning : Meaning ℤ where
  holds t σ := decide (t = positiveX.text ∧ 0 < σ ['x'])
  names t σ τ h := by
    by_cases ht : t = positiveX.text
    · subst ht
      rw [h ['x'] (by decide)]
    · simp [ht]

/-- All data are 1. -/
def ones : State ℤ := ⟨⟨fun _ => 1, []⟩, fun _ => false⟩

/-- `i > n` -/
def pastEnd : Cond := ⟨['i', ' ', '>', ' ', 'n'], []⟩

/-- `a(i) > 0` -/
def positive : Cond :=
  ⟨['a', '[', '(', 'i', ')', ' ', '-', ' ', '1', ']', ' ', '>', ' ', '0'],
    [⟨['a'], [['i']], true⟩]⟩

/-- `IF (i > n) ... ELSE IF (a(i) > 0) ...` -/
def boundsNest : List (Stmt ℤ) := [.cond pastEnd [] [.cond positive [] []]]

def isA (x : Text) : Bool := decide (x = ['a'])

def isIndex (x : Text) : Bool := decide (x = ['i'] ∨ x = ['n'])

/-- The bounds test compares `i` and `n`. -/
def boundsMeaning : Meaning ℤ where
  holds t σ := decide (t = pastEnd.text ∧ σ ['n'] < σ ['i'])
  names t σ τ h := by
    by_cases ht : t = pastEnd.text
    · subst ht
      rw [h ['i'] (by decide), h ['n'] (by decide)]
    · simp [ht]

/-- `i = 4` and `n = 3` -/
def pastStore : State ℤ := ⟨⟨fun x => if x = ['i'] then 4 else 3, []⟩, fun _ => false⟩

end Conditionals
