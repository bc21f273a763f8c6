/-
# The pass preserves the runs

The pass moves a write only past operations that neither access its memory nor define what
it uses, so every move keeps the runs and the SSA form, and with them the pass does.
-/
import DaceFortran.SinkStores.SinkPreserves

namespace SinkStores

variable {ι : Type} [DecidableEq ι]

/-- A module: its tables with the order of its operations. -/
structure Program (ι : Type) [DecidableEq ι] extends Ir ι where
  layout : Layout ι
  arranged : toIr.Arranged layout
  operandsDefined : toIr.OperandsDefined layout

/-- The state a function is run in. -/
structure EntryState (ι D : Type) extends State ι D where
  fresh : toState.Fresh

omit [DecidableEq ι] in
theorem EntryState.private {D : Type} (s : EntryState ι D) (M : Ir ι) (a : ι) :
    Private M a s.toState where
  env := by
    intro v r hr
    rw [s.fresh.env v] at hr
    cases hr
  mem := by
    rintro r d _ hr' ⟨n, rfl⟩
    exact s.fresh.mem r d a n hr'
  escaped := by
    rintro _ ⟨n, rfl⟩
    exact s.fresh.escaped a n

namespace Ir

variable {M : Ir ι} {L : Layout ι} {a : ι} {acc : Accesses ι}

/-! ## The last use -/

/-- The last use so far stands behind the write in its block. -/
def LastBehind (M : Ir ι) (L : Layout ι) (write : ι) (s : Search ι) : Prop :=
  ∀ last, s.last = some last → M.blockOf last = M.blockOf write ∧
    M.isBeforeInBlock L write last = true

variable {write last : ι} {s s' : Search ι} {L₀ : Layout ι}

theorem visitUser_last {user : ι} (h : M.visitUser L write s user = some s')
    (hs : M.LastBehind L write s) : M.LastBehind L write s' := by
  rw [visitUser] at h
  split at h
  · cases h
    exact hs
  · split at h
    · cases h
    · rename_i top htop
      split at h
      · cases h
      · cases h
        intro last hlast
        simp only at hlast
        split at hlast
        · rename_i hbefore
          cases hlast
          rw [Bool.and_eq_true] at hbefore
          exact ⟨(ancestor_block htop).1, hbefore.1⟩
        · exact hs last hlast

theorem followUses_last (n : ℕ) (h : M.followUses L write n s = some s')
    (hs : M.LastBehind L write s) : M.LastBehind L write s' := by
  induction n generalizing s with
  | zero =>
    cases h
    exact hs
  | succ n ih =>
    rw [followUses] at h
    split at h
    · cases h
      exact hs
    · obtain ⟨s₁, h₁, h₂⟩ := Option.bind_eq_some_iff.1 h
      exact ih h₂ (Fallible.foldlM_invariant_some
        (fun t u t' _ ht hs => visitUser_last ht hs) h₁ hs)

/-- What `lastUseOfOverwrittenValue` finds stands behind the write in its block, if it is not the
write. -/
theorem lastUse_behind {loads : List ι}
    (h : M.lastUseOfOverwrittenValue L write loads = some last) (hne : last ≠ write) :
    M.blockOf last = M.blockOf write ∧ M.isBeforeInBlock L write last = true := by
  rw [lastUseOfOverwrittenValue] at h
  split at h
  · cases h
    exact (hne rfl).elim
  · rename_i s hs
    apply followUses_last _ hs _ last h
    intro last hlast
    cases hlast

/-! ## What a write is moved past -/

/-- No access to the memory lies in the range. -/
def RangeFree (M : Ir ι) (acc : Accesses ι) (L : Layout ι) (write last : ι) : Prop :=
  ∀ o, o ∈ acc.loads ∨ o ∈ acc.writes → M.inRange L write last o = false

/-- **What the pass moves a write past may be passed.** -/
theorem passable_of_rangeFree (h : M.NonEscaping a acc) (hdef : M.OperandsDefined L) {x : ι}
    (hfree : M.RangeFree acc L write last) (hblock : M.blockOf x = M.blockOf write)
    (hx : M.isBeforeInBlock L write x = true ∧ M.isBeforeInBlock L last x = false) :
    M.Passable a write x := by
  have hrange : ∀ o, M.findAncestorOpInBlock (M.blockOf write) o = some x →
      M.inRange L write last o = true := by
    intro o ho
    simp only [inRange, ho, hx.1, hx.2]
    rfl
  have haccess : ∀ {o v}, M.findAncestorOpInBlock (M.blockOf write) o = some x →
    v ∈ (M.op o).operands →
      o ∈ acc.loads ∨ o ∈ acc.writes → False := by
    intro o v ho _ hmem
    have := hfree o hmem
    rw [hrange o ho] at this
    cases this
  refine ⟨⟨?_, ?_, ?_, ?_⟩, hblock, ?_⟩
  · exact fun ho hb => ancestor_nested ho hb rfl
  · intro o memref result ho hop hd
    have hmem : memref ∈ (M.op o).operands := by simp [hop, Op.operands]
    have hacc := h.accessed memref hd o (M.mem_uses.2 hmem)
    simp only [hop] at hacc
    exact haccess ho hmem (Or.inl hacc)
  · intro o value memref ho hop hd
    have hmem : memref ∈ (M.op o).operands := by simp [hop, Op.operands]
    have hacc := h.accessed memref hd o (M.mem_uses.2 hmem)
    simp only [hop] at hacc
    exact haccess ho hmem (Or.inr hacc.2)
  · intro o rhs lhs scalarRhs ho hop hd
    have hmem : lhs ∈ (M.op o).operands := by simp [hop, Op.operands]
    have hacc := h.accessed lhs hd o (M.mem_uses.2 hmem)
    simp only [hop] at hacc
    exact haccess ho hmem (Or.inr hacc.2.2)
  · intro v hv o ho
    refine ⟨not_defined_behind hdef hv hx.1 hblock ho, ?_⟩
    -- an argument of a block in `x` is not visible to the write
    intro b hb harg
    obtain ⟨b', top, htop, hb'⟩ := hdef.args harg hv
    have hlevel : M.level b' = M.level b := by
      rcases hb' with rfl | hdom
      · rfl
      · exact (level_of_dominates hdom).symm
    have hparent := M.level_parent (M.parent_blocks.1 hb)
    have hle := (ancestor_block htop).2.1
    have hle' := (ancestor_block ho).2.1
    omega

/-! ## The pass -/

/-- The module is run the same in both orders. -/
def SameRuns (M : Ir ι) (L L' : Layout ι) : Prop :=
  ∀ (D : Type) (R : Machine ι D) (s : EntryState ι D) (c : Code ι D) (log : Log ι D)
    (res : Option (State ι D)),
    Exec M R L c s.toState log res ↔ Exec M R L' c s.toState log res

/-- A later order of the operations of the module. -/
structure Kept (M : Ir ι) (L L' : Layout ι) : Prop where
  arranged : M.Arranged L'
  operandsDefined : M.OperandsDefined L'
  sameRuns : M.SameRuns L L'

/-- What the pass does with a write: it leaves it, or moves it down past operations that do not
access its memory. -/
theorem sinkWrite_cases (acc : Accesses ι) (L : Layout ι) (write : ι) :
    M.sinkWrite acc L write = L ∨ ∃ last, M.lastUseOfOverwrittenValue L write acc.loads =
      some last ∧ last ≠ write ∧
      M.RangeFree acc L write last ∧ M.sinkWrite acc L write = M.moveAfter L write last := by
  rw [sinkWrite]
  cases hlast : M.lastUseOfOverwrittenValue L write acc.loads with
  | none => exact Or.inl rfl
  | some last =>
    by_cases hne : last = write
    · exact Or.inl (by simp [hne])
    · simp only [if_neg hne]
      split
      · exact Or.inl rfl
      · rename_i hfree
        rw [Bool.not_eq_true, Bool.or_eq_false_iff, List.any_eq_false, List.any_eq_false] at hfree
        refine Or.inr ⟨last, rfl, hne, ?_, rfl⟩
        rintro o (ho | ho)
        · simpa using hfree.1 o ho
        · simpa using hfree.2 o ho

/-- **One write.** -/
theorem kept_sinkWrite (h : M.NonEscaping a acc) (hw : write ∈ acc.writes)
    (hL : M.Kept L₀ L) : M.Kept L₀ (M.sinkWrite acc L write) := by
  rcases sinkWrite_cases (M := M) acc L write with heq | ⟨last, hlast, hne, hfree, heq⟩
  · rw [heq]
    exact hL
  · obtain ⟨hblock, hbefore⟩ := lastUse_behind hlast hne
    obtain ⟨pre, mid, post, hmove⟩ := movesDown hL.arranged hblock hbefore
    have hmid : ∀ x ∈ mid, M.Passable a write x := by
      intro x hx
      apply passable_of_rangeFree h hL.operandsDefined hfree _ (hmove.range x hx)
      apply hL.arranged.mem_iff.1
      rw [hmove.before]
      simp [hx]
    have hres : (M.op write).results = [] := by
      obtain ⟨v, -, ⟨value, hop⟩ | ⟨rhs, hop⟩⟩ := h.writes write hw <;> rw [hop] <;> rfl
    rw [heq]
    constructor
    · exact moveAfter_arranged hL.arranged hmove
    · exact moveAfter_operandsDefined hL.arranged hmove hres hL.operandsDefined
    · intro D R s c log res
      rw [hL.sameRuns D R s c log res]
      exact exec_moveAfter hL.arranged h hw hmove hmid (s.private M a)

/-- The writes of one alloca. -/
theorem kept_sinkWrites (h : M.NonEscaping a acc) (writes : List ι) (hw : writes ⊆ acc.writes)
    (hL : M.Kept L₀ L) : M.Kept L₀ (writes.foldl (M.sinkWrite acc) L) := by
  induction writes generalizing L with
  | nil => exact hL
  | cons w writes ih =>
    rw [List.cons_subset] at hw
    exact ih hw.2 (kept_sinkWrite h hw.1 hL)

/-- **One alloca.** -/
theorem kept_sinkAlloca (o : ι) (hL : M.Kept L₀ L) : M.Kept L₀ (M.sinkAlloca L o) := by
  rw [sinkAlloca]
  split
  · rename_i sizes result hop
    split
    · exact hL
    · rename_i acc hacc
      split
      · exact hL
      · exact kept_sinkWrites (nonEscaping_of_collect hop hacc) acc.writes (List.Subset.refl _) hL
  · exact hL

/-- All allocas of the walk. -/
theorem kept_walk (walk : List ι) (hL : M.Kept L₀ L) : M.Kept L₀ (walk.foldl M.sinkAlloca L) := by
  induction walk generalizing L with
  | nil => exact hL
  | cons o walk ih => exact ih (kept_sinkAlloca o hL)

end Ir

/-- **The pass preserves meaning**: after all its moves every operand is still defined before its
use, and every code of the module, from any state in which a function is entered, has exactly the
runs it had, finished or stopped, with the same value for each load. -/
theorem Program.runOnOperation_preserves (P : Program ι) :
    P.OperandsDefined (P.runOnOperation P.layout) ∧
      ∀ (D : Type) (R : Machine ι D) (s : EntryState ι D) (c : Code ι D) (log : Log ι D)
      (res : Option (State ι D)),
        Exec P.toIr R P.layout c s.toState log res ↔
          Exec P.toIr R (P.runOnOperation P.layout) c s.toState log res := by
  have hkept : P.toIr.Kept P.layout (P.walk.foldl P.toIr.sinkAlloca P.layout) := Ir.kept_walk P.walk
    ⟨P.arranged, P.operandsDefined, fun _ _ _ _ _ _ => Iff.rfl⟩
  exact ⟨hkept.operandsDefined, hkept.sameRuns⟩

end SinkStores
