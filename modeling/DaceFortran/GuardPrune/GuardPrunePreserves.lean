/-
# Executions of the pruned module

As long as no slot the pass prunes on is allocated, a dereference of it ends the execution.
So an execution that starts without such slots, allocates none behind the pass's back and
dereferences one in every erased guard it enters never gets out of that guard, and one that
stays defined is an execution of the pruned module.
-/
import DaceFortran.GuardPrune.PruneNeverAllocatedMemberDeref

open List

namespace GuardPrune

variable {R : Type}

/-! ## Conditions -/

/-- No slot the pass prunes on is allocated. -/
def NoneAllocated (M : Module R) (s : State R) : Prop :=
  ∀ k object, M.prunable k = true → s.allocated object k = false

/-- An operation that does not use the address of the slot does not allocate it; an erased guard
that is entered dereferences a slot the pass prunes on. -/
def Event.Expected (M : Module R) : Event R → Prop
  | .did o s => ∀ k object, M.prunable k = true → o.through ≠ some k →
      (o.effect s).allocated object k = true → s.allocated object k = true
  | .entered block => ∃ k x, M.prunable k = true ∧ Stmt.deref k x ∈ block

/-! ## Statements of the module -/

/-- The statements, and those in them, are of the module. -/
def Belongs (M : Module R) (ss : List (Stmt R)) : Prop :=
  ∀ x ∈ allWithin ss, x ∈ allWithin M.functions.flatten

variable {M : Module R} {c : State R → Bool}

theorem belongs_append {ss ss' : List (Stmt R)} :
    Belongs M (ss ++ ss') ↔ Belongs M ss ∧ Belongs M ss' := by
  unfold Belongs
  rw [allWithin_append]
  constructor
  · intro h
    exact ⟨fun x hx => h x (mem_append_left _ hx), fun x hx => h x (mem_append_right _ hx)⟩
  · rintro ⟨h, h'⟩ x hx
    rcases mem_append.1 hx with hx | hx
    · exact h x hx
    · exact h' x hx

variable {ss : List (Stmt R)} {h : Bool} {s : State R} {body : ℕ → List (Stmt R)}
  {l : List (Event R)} {out : Option (State R)}

theorem belongs_cons {s : Stmt R} (h : Belongs M (s :: ss)) :
    (∀ x ∈ s.within, x ∈ allWithin M.functions.flatten) ∧ Belongs M ss :=
  ⟨fun x hx => h x (mem_append_left _ hx), fun x hx => h x (mem_append_right _ hx)⟩

theorem belongs_nil (M : Module R) : Belongs M [] := by
  intro x hx
  cases hx

theorem belongs_body (M : Module R) (f : ℕ) : Belongs M (M.body f) := by
  unfold Module.body
  rw [getD_eq_getElem?_getD]
  cases hf : M.functions[f]? with
  | none => exact belongs_nil M
  | some ss =>
    obtain ⟨l₁, l₂, he⟩ := append_of_mem (mem_of_getElem? hf)
    intro x hx
    rw [he, flatten_append, flatten_cons, allWithin_append, allWithin_append]
    exact mem_append_right _ (mem_append_left _ hx)

variable {n : ℕ} {k : SlotKey}

theorem belongs_taken {t e ss : List (Stmt R)}
    (hb : Belongs M (.ifOp n c t h e :: ss)) : Belongs M (t ++ ss) := by
  obtain ⟨hs, hss⟩ := belongs_cons hb
  refine belongs_append.2 ⟨?_, hss⟩
  intro x hx
  exact hs x (mem_cons_of_mem _ (mem_append_left _ hx))

theorem belongs_skipped {t e ss : List (Stmt R)}
    (hb : Belongs M (.ifOp n c t h e :: ss)) : Belongs M ((if h then e else []) ++ ss) := by
  obtain ⟨hs, hss⟩ := belongs_cons hb
  refine belongs_append.2 ⟨?_, hss⟩
  cases h with
  | false => exact belongs_nil M
  | true =>
    intro x hx
    exact hs x (mem_cons_of_mem _ (mem_append_right _ hx))

theorem belongs_again {b ss : List (Stmt R)}
    (hb : Belongs M (.loop c b :: ss)) : Belongs M (b ++ .loop c b :: ss) := by
  obtain ⟨hs, -⟩ := belongs_cons hb
  refine belongs_append.2 ⟨?_, hb⟩
  intro x hx
  exact hs x (mem_cons_of_mem _ hx)

/-! ## Slots stay unallocated -/

/-- No operation of the module uses the address of a slot the pass prunes on. -/
theorem through_not_prunable {o : Op R} (ho : Stmt.op o ∈ allWithin M.functions.flatten)
    (hk : M.prunable k = true) : o.through ≠ some k := by
  intro he
  obtain ⟨d, hd, hdk, hw⟩ := M.linked o k ho he
  unfold Module.prunable at hk
  rw [Bool.and_eq_true, Bool.not_eq_true'] at hk
  have hmem : d ∈ M.designatesOf k := by
    unfold Module.designatesOf
    rw [mem_filter]
    exact ⟨mem_filterMap.2 ⟨_, hd, rfl⟩, by simp [hdk]⟩
  rw [any_eq_false] at hk
  exact hk.2 d hmem hw

/-- An expected operation of the module leaves the slots unallocated. -/
theorem noneAllocated_effect {o : Op R}
    (ho : Stmt.op o ∈ allWithin M.functions.flatten) (hs : NoneAllocated M s)
    (he : (Event.did o s).Expected M) : NoneAllocated M (o.effect s) := by
  intro k object hk
  by_contra hne
  have := he k object hk (through_not_prunable ho hk) (by simpa using hne)
  rw [hs k object hk] at this
  cases this

/-- **Statements with a dereference of an unallocated slot among them end undefined.** -/
theorem undefined_of_deref (hbody : body = M.body)
    (hr : Exec body M.isGuard ss s l out) (hb : Belongs M ss) (hs : NoneAllocated M s)
    (hl : ∀ e ∈ l, e.Expected M) {x : State R → ℕ} (hk : M.prunable k = true)
    (hx : Stmt.deref k x ∈ ss) : out = none := by
  -- on the execution: up to the dereference no slot gets allocated
  induction hr with
  | done s => cases hx
  | designate hr ih =>
    rcases mem_cons.1 hx with he | hx
    · cases he
    · exact ih (belongs_cons hb).2 hs hl hx
  | @deref k' x' ss s l out ha hr ih =>
    rcases mem_cons.1 hx with he | hx
    · cases he
      rw [hs k (x s) hk] at ha
      cases ha
    · exact ih (belongs_cons hb).2 hs hl hx
  | undefined ha => rfl
  | op hr ih =>
    rcases mem_cons.1 hx with he | hx
    · cases he
    · refine ih (belongs_cons hb).2 ?_ (fun e he => hl e (mem_cons_of_mem _ he)) hx
      exact noneAllocated_effect ((belongs_cons hb).1 _ mem_cons_self) hs (hl _ mem_cons_self)
  | taken hc hr ih =>
    rcases mem_cons.1 hx with he | hx
    · cases he
    · exact ih (belongs_taken hb) hs (fun e he => hl e (mem_append_right _ he))
        (mem_append_right _ hx)
  | skipped hc hr ih =>
    rcases mem_cons.1 hx with he | hx
    · cases he
    · exact ih (belongs_skipped hb) hs hl (mem_append_right _ hx)
  | again hc hr ih =>
    exact ih (belongs_again hb) hs hl (mem_append_right _ hx)
  | left hc hr ih =>
    rcases mem_cons.1 hx with he | hx
    · cases he
    · exact ih (belongs_cons hb).2 hs hl hx
  | call hr ih =>
    rcases mem_cons.1 hx with he | hx
    · cases he
    · rw [hbody] at ih
      exact ih (belongs_append.2 ⟨belongs_body M _, (belongs_cons hb).2⟩) hs hl
        (mem_append_right _ hx)

/-! ## The pruned module -/

theorem prune_append (M : Module R) (ss ss' : List (Stmt R)) :
    M.prune (ss ++ ss') = M.prune ss ++ M.prune ss' := by
  induction ss with
  | nil => rfl
  | cons s ss ih =>
    show M.pruneStmt s ++ M.prune (ss ++ ss') = M.pruneStmt s ++ M.prune ss ++ M.prune ss'
    rw [ih, append_assoc]

/-- A guard has no else. -/
theorem isGuard_else {t e : List (Stmt R)}
    (hg : M.isGuard (.ifOp n c t h e) = true) : h = false := by
  simp only [Module.isGuard, Bool.and_eq_true, Bool.not_eq_true'] at hg
  exact hg.1.2

theorem prune_if (M : Module R) (n : ℕ) (c : State R → Bool) (t e ss : List (Stmt R)) (h : Bool) :
    M.prune (.ifOp n c t h e :: ss) =
      (if M.isGuard (.ifOp n c t h e) then [] else [.ifOp n c (M.prune t) h (M.prune e)]) ++
        M.prune ss := by
  show M.pruneStmt (.ifOp n c t h e) ++ M.prune ss = _
  rw [Module.pruneStmt]

theorem prune_else (M : Module R) (h : Bool) (e ss : List (Stmt R)) :
    M.prune ((if h then e else []) ++ ss) = (if h then M.prune e else []) ++ M.prune ss := by
  rw [prune_append]
  cases h with
  | false => rfl
  | true => rfl

/-- A defined execution enters no guard and is one of the pruned statements. -/
theorem pruned_exec (hbody : body = M.body)
    (hr : Exec body M.isGuard ss s l out) (hb : Belongs M ss) (hs : NoneAllocated M s)
    (hl : ∀ e ∈ l, e.Expected M) (ho : out ≠ none) :
    (∀ block, Event.entered block ∉ l) ∧
      Exec M.prunedBody (fun _ => false) (M.prune ss) s l out := by
  -- a guard that is entered would end undefined, so every erased one is passed by
  induction hr with
  | done s => exact ⟨fun block hm => (not_mem_nil hm).elim, .done s⟩
  | designate hr ih =>
    obtain ⟨hno, hp⟩ := ih (belongs_cons hb).2 hs hl ho
    exact ⟨hno, .designate hp⟩
  | deref ha hr ih =>
    obtain ⟨hno, hp⟩ := ih (belongs_cons hb).2 hs hl ho
    exact ⟨hno, .deref ha hp⟩
  | undefined ha => exact absurd rfl ho
  | op hr ih =>
    obtain ⟨hno, hp⟩ := ih (belongs_cons hb).2
      (noneAllocated_effect ((belongs_cons hb).1 _ mem_cons_self) hs (hl _ mem_cons_self))
      (fun e he => hl e (mem_cons_of_mem _ he)) ho
    refine ⟨?_, .op hp⟩
    intro block hm
    rcases mem_cons.1 hm with he | hm
    · cases he
    · exact hno block hm
  | @taken n c t e h ss s l out hc hr ih =>
    have hrest : ∀ e ∈ l, e.Expected M := fun e he => hl e (mem_append_right _ he)
    cases hg : M.isGuard (.ifOp n c t h e) with
    | true =>
      -- the guard dereferences a slot that is not allocated
      rw [hg] at hl
      obtain ⟨k, x, hk, hx⟩ := hl (.entered t) (mem_append_left _ mem_cons_self)
      exact absurd (undefined_of_deref hbody hr (belongs_taken hb) hs hrest hk
        (mem_append_left _ hx)) ho
    | false =>
      obtain ⟨hno, hp⟩ := ih (belongs_taken hb) hs hrest ho
      refine ⟨hno, ?_⟩
      rw [prune_if, hg]
      rw [prune_append] at hp
      exact .taken hc hp
  | @skipped n c t e h ss s l out hc hr ih =>
    obtain ⟨hno, hp⟩ := ih (belongs_skipped hb) hs hl ho
    refine ⟨hno, ?_⟩
    rw [prune_if]
    rw [prune_else] at hp
    cases hg : M.isGuard (.ifOp n c t h e) with
    | true =>
      rw [isGuard_else hg] at hp
      exact hp
    | false => exact .skipped hc hp
  | again hc hr ih =>
    obtain ⟨hno, hp⟩ := ih (belongs_again hb) hs hl ho
    rw [prune_append] at hp
    exact ⟨hno, .again hc hp⟩
  | left hc hr ih =>
    obtain ⟨hno, hp⟩ := ih (belongs_cons hb).2 hs hl ho
    exact ⟨hno, .left hc hp⟩
  | @call f ss s l out hr ih =>
    rw [hbody] at ih
    obtain ⟨hno, hp⟩ := ih (belongs_append.2 ⟨belongs_body M _, (belongs_cons hb).2⟩) hs hl ho
    rw [prune_append] at hp
    exact ⟨hno, .call hp⟩

/-- **In every execution that starts with no slot the pass prunes on allocated, whose other
operations allocate none and whose entered guards dereference one: entering an erased guard is
undefined, and if the execution is defined, the pruned module does the same operations in the same
states.** -/
theorem guardPrune_preserves (M : Module R) (f : ℕ) (s : State R) (l : List (Event R))
    (out : Option (State R)) (hr : Exec M.body M.isGuard (M.body f) s l out)
    (hs : NoneAllocated M s)
    (hl : ∀ e ∈ l, e.Expected M) :
    (∀ block, Event.entered block ∈ l → out = none) ∧
      (out ≠ none → Exec M.prunedBody (fun _ => false) (M.prunedBody f) s l out) := by
  constructor
  · intro block hm
    by_contra ho
    exact (pruned_exec rfl hr (belongs_body M f) hs hl ho).1 block hm
  · intro ho
    exact (pruned_exec rfl hr (belongs_body M f) hs hl ho).2

/-! ## Guards on one slot -/

/-- The slot `act` of a solver. -/
def actKey : SlotKey := ⟨"solver", "act"⟩

/-- A designate of it whose descriptor is only loaded. -/
def actDesignate : Designate := ⟨actKey, true, [.load]⟩

/-- A store that counts. -/
def countStore : Op ℕ := ⟨none, fun s => { s with rest := s.rest + 1 }⟩

/-- A guard with the given statements after the designate, then a store. -/
def guarded (inner : List (Stmt ℕ)) (hi : ∀ o, Stmt.op o ∈ allWithin inner → o = countStore) :
    Module ℕ where
  functions := [[.ifOp 0 (fun s => decide (s.rest = 0)) (.designate actDesignate :: inner) false [],
    .op countStore]]
  linked := by
    intro o k ho ht
    have hcount : o = countStore := by
      simp only [List.flatten_cons, List.flatten_nil, List.append_nil, allWithin, Stmt.within,
        List.mem_append,
        List.mem_cons, List.not_mem_nil, reduceCtorEq, false_or, or_false, Stmt.op.injEq] at ho
      rcases ho with ho | ho
      · exact hi o ho
      · exact ho
    rw [hcount] at ht
    cases ht

/-- A solver whose guard dereferences the slot. -/
def derefGuard : Module ℕ := guarded [.deref actKey fun _ => 0] (by
  intro o ho
  simp [allWithin, Stmt.within] at ho)

/-- A start with the guard closed and nothing allocated. -/
def closedStart : State ℕ := ⟨fun _ _ => false, 1⟩

/-- A start with the guard open and nothing allocated. -/
def openStart : State ℕ := ⟨fun _ _ => false, 0⟩

/-- The entry block of the guard. -/
def derefBlock : List (Stmt ℕ) := [.designate actDesignate, .deref actKey fun _ => 0]

/-- From the closed start the store is done in both modules; from the open one the guard is entered,
and the execution is undefined. -/
theorem guardPrune_preserves_closed :
    Exec derefGuard.prunedBody (fun _ => false) (derefGuard.prunedBody 0) closedStart
        [.did countStore closedStart] (some (countStore.effect closedStart)) ∧
      ∀ out, Exec derefGuard.body derefGuard.isGuard (derefGuard.body 0) openStart
        [.entered derefBlock] out → out = none := by
  constructor
  · refine (guardPrune_preserves derefGuard 0 closedStart _ _
      (.skipped rfl (.op (.done _))) ?_ ?_).2
      (by simp)
    · intro k object hk
      rfl
    · intro e he
      rw [List.mem_singleton.1 he]
      intro k object hk ht ha
      exact ha
  · intro out hr
    refine (guardPrune_preserves derefGuard 0 openStart _ out hr ?_ ?_).1 derefBlock (.head _)
    · intro k object hk
      rfl
    · intro e he
      rw [List.mem_singleton.1 he]
      exact ⟨actKey, fun _ => 0, by decide, by simp [derefBlock]⟩

/-- The execution from the open start. -/
theorem exec_openStart : Exec derefGuard.body derefGuard.isGuard (derefGuard.body 0) openStart
    [.entered derefBlock] none := by
  have hr : Exec derefGuard.body derefGuard.isGuard (derefGuard.body 0) openStart _ none :=
    .taken rfl (.designate (.undefined rfl))
  rwa [if_pos (by decide)] at hr

/-- A guard that only tests the slot, `IF (ASSOCIATED(solver%act))`, and then stores. -/
def testGuard : Module ℕ := guarded [.op countStore] (by
  intro o ho
  simpa [allWithin, Stmt.within] using ho)

/-- The guard is erased, but an execution enters it and is defined. -/
theorem not_undefined_testGuard :
    ¬ ∀ (M : Module ℕ) f s l out, Exec M.body M.isGuard (M.body f) s l out →
      ∀ block, Event.entered block ∈ l → out = none := by
  intro h
  have hr : Exec testGuard.body testGuard.isGuard (testGuard.body 0) ⟨fun _ _ => false, 0⟩ _ _ :=
    .taken rfl (.designate (.op (.op (.done _))))
  have := h testGuard 0 _ _ _ hr [.designate actDesignate, .op countStore]
    (List.mem_append_left _ (by
      rw [if_pos (by decide)]
      exact List.mem_cons_self))
  cases this

end GuardPrune
