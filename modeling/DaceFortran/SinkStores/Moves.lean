/-
# Addresses that do not escape

What a successful `collectAccesses` says about an alloca: every use of an address derived
from it is a re-declare, a conversion, a load that was collected, or a write into it that
was collected.  Then the lemmas on the nesting of blocks and on moving an operation.
-/
import DaceFortran.Lib.Fallible
import DaceFortran.SinkStores.SinkScalarStores
import Mathlib.Data.List.Perm.Basic

open List

namespace SinkStores

open Fallible

variable {ι : Type} [DecidableEq ι]

/-! ## Derived addresses -/

namespace Ir

/-- A re-declare or conversion of `v` has the result `r`. -/
def Redeclares (M : Ir ι) (v r : ValueId) : Prop :=
  ∃ u, (∃ others results, M.op u = .declare v others results ∧ r ∈ results) ∨ M.op u = .convert v r

/-- The addresses derived from an alloca. -/
def Derived (M : Ir ι) (a : ι) (v : ValueId) : Prop :=
  ∃ r ∈ (M.op a).results, Relation.ReflTransGen M.Redeclares r v

/-- Every use of `v` is one that `collectAccesses` lets pass. -/
def Accessed (M : Ir ι) (acc : Accesses ι) (v : ValueId) : Prop :=
  ∀ u ∈ M.uses v, match M.op u with
    | .declare memref _ _ => memref = v
    | .convert _ _ => True
    | .load _ _ => u ∈ acc.loads
    | .store value _ => value ≠ v ∧ u ∈ acc.writes
    | .assign rhs _ scalarRhs => rhs ≠ v ∧ scalarRhs = true ∧ u ∈ acc.writes
    | _ => False

end Ir

/-- The accesses only grow. -/
def Accesses.Sub (acc acc' : Accesses ι) : Prop := acc.loads ⊆ acc'.loads ∧ acc.writes ⊆ acc'.writes

omit [DecidableEq ι] in
theorem Accesses.Sub.refl (acc : Accesses ι) : acc.Sub acc :=
  ⟨List.Subset.refl _, List.Subset.refl _⟩

omit [DecidableEq ι] in
theorem Accesses.Sub.trans {acc acc₁ acc₂ : Accesses ι} (h : acc.Sub acc₁) (h₁ : acc₁.Sub acc₂) :
    acc.Sub acc₂ :=
  ⟨List.Subset.trans h.1 h₁.1, List.Subset.trans h.2 h₁.2⟩

namespace Ir

variable {M : Ir ι}

variable {acc acc' : Accesses ι} {v : ValueId}

omit [DecidableEq ι] in
theorem Accessed.mono (h : M.Accessed acc v) (hsub : acc.Sub acc') :
    M.Accessed acc' v := by
  intro u hu
  have := h u hu
  cases hop : M.op u <;> simp only [hop] at this ⊢
  all_goals try exact this
  · exact hsub.1 this
  · exact ⟨this.1, hsub.2 this.2⟩
  · exact ⟨this.1, this.2.1, hsub.2 this.2.2⟩

/-- Every address re-declared from `v` has only uses that pass. -/
def AllAccessed (M : Ir ι) (acc : Accesses ι) (v : ValueId) : Prop :=
  ∀ r, Relation.ReflTransGen M.Redeclares v r → M.Accessed acc r

/-- The writes are into addresses re-declared from `v`. -/
def Writes (M : Ir ι) (v : ValueId) (w : ι) : Prop :=
  ∃ r, Relation.ReflTransGen M.Redeclares v r ∧
    ((∃ value, M.op w = .store value r) ∨ ∃ rhs, M.op w = .assign rhs r true)

/-- What `collectAccesses` establishes. -/
structure Collected (M : Ir ι) (v : ValueId) (acc acc' : Accesses ι) : Prop where
  sub : acc.Sub acc'
  all : M.AllAccessed acc' v
  writes : ∀ w ∈ acc'.writes, w ∈ acc.writes ∨ M.Writes v w
  loads : ∀ l ∈ acc'.loads, l ∈ acc.loads ∨ ∃ memref result, M.op l = .load memref result

omit [DecidableEq ι] in
theorem Writes.redeclared {v r : ValueId} {w : ι} (h : M.Writes r w) (hr : M.Redeclares v r) :
    M.Writes v w := by
  obtain ⟨x, hx, hw⟩ := h
  exact ⟨x, Relation.ReflTransGen.head hr hx, hw⟩

/-- What one use establishes: it passes, and so does every address re-declared through it. -/
structure Used (M : Ir ι) (v : ValueId) (u : ι) (acc : Accesses ι) : Prop where
  pass : match M.op u with
    | .declare memref _ _ => memref = v
    | .convert _ _ => True
    | .load _ _ => u ∈ acc.loads
    | .store value _ => value ≠ v ∧ u ∈ acc.writes
    | .assign rhs _ scalarRhs => rhs ≠ v ∧ scalarRhs = true ∧ u ∈ acc.writes
    | _ => False
  declared : ∀ others results, M.op u = .declare v others results →
    ∀ r ∈ results, M.AllAccessed acc r
  converted : ∀ r, M.op u = .convert v r → M.AllAccessed acc r

variable {u : ι} {collect : Accesses ι → ValueId → Option (Accesses ι)}

omit [DecidableEq ι] in
theorem Used.mono (h : M.Used v u acc) (hsub : acc.Sub acc') :
    M.Used v u acc' where
  pass := by
    have := h.pass
    cases hop : M.op u <;> simp only [hop] at this ⊢
    all_goals try exact this
    · exact hsub.1 this
    · exact ⟨this.1, hsub.2 this.2⟩
    · exact ⟨this.1, this.2.1, hsub.2 this.2.2⟩
  declared := fun others results hop r hr x hx =>
    (h.declared others results hop r hr x hx).mono hsub
  converted := fun r hop x hx => (h.converted r hop x hx).mono hsub

/-- What one use adds to the accesses. -/
structure UseCollected (M : Ir ι) (v : ValueId) (u : ι) (acc acc' : Accesses ι) : Prop where
  sub : acc.Sub acc'
  used : M.Used v u acc'
  writes : ∀ w ∈ acc'.writes, w ∈ acc.writes ∨ M.Writes v w
  loads : ∀ l ∈ acc'.loads, l ∈ acc.loads ∨ ∃ memref result, M.op l = .load memref result

omit [DecidableEq ι] in
/-- A write of `v` that is collected. -/
theorem useCollected_write {acc : Accesses ι} (hw : M.Writes v u)
    (hpass : M.Used v u { acc with writes := acc.writes ++ [u] }) :
    M.UseCollected v u acc { acc with writes := acc.writes ++ [u] } := by
  refine ⟨⟨List.Subset.refl _, subset_append_left _ _⟩, hpass, ?_, fun l hl => Or.inl hl⟩
  intro w hmem
  rcases mem_append.1 hmem with hmem | hmem
  · exact Or.inl hmem
  · rw [mem_singleton.1 hmem]
    exact Or.inr hw

omit [DecidableEq ι] in
/-- The re-declares of a declare, one result after the other. -/
theorem useCollected_declare
    {others results : List ValueId} (hop : M.op u = .declare v others results)
    (hcollect : ∀ acc r acc', collect acc r = some acc' → M.Collected r acc acc')
    (h : results.foldlM collect acc = some acc') : M.UseCollected v u acc acc' := by
  have hred : ∀ r ∈ results, M.Redeclares v r := fun r hr => ⟨u, Or.inl ⟨others, results, hop, hr⟩⟩
  have hall := foldlM_forall_some (R := fun r t => M.AllAccessed t r)
    (fun t r t' _ ht => (hcollect t r t' ht).all)
    (fun t r r' t' _ ht hr x hx => (hr x hx).mono (hcollect t r' t' ht).sub) h
  constructor
  · exact foldlM_invariant_some (I := fun t => acc.Sub t)
      (fun t r t' _ ht hst => hst.trans (hcollect t r t' ht).sub) h (Accesses.Sub.refl acc)
  · refine ⟨by simp [hop], ?_, by simp [hop]⟩
    intro others' results' hop' r hr
    rw [hop] at hop'
    cases hop'
    exact hall r hr
  · exact foldlM_invariant_some (I := fun t => ∀ w ∈ t.writes, w ∈ acc.writes ∨ M.Writes v w)
      (fun t r t' hr ht hst w hw => ((hcollect t r t' ht).writes w hw).elim (hst w)
        (fun h => Or.inr (h.redeclared (hred r hr)))) h (fun w hw => Or.inl hw)
  · exact foldlM_invariant_some
      (I := fun t => ∀ l ∈ t.loads, l ∈ acc.loads ∨ ∃ memref result, M.op l = .load memref result)
      (fun t r t' hr ht hst l hl => ((hcollect t r t' ht).loads l hl).elim (hst l) Or.inr) h
        (fun l hl => Or.inl hl)

omit [DecidableEq ι] in
/-- One use, if the calls on the results are sound. -/
theorem collectUse_sound
    (hu : u ∈ M.uses v)
    (hcollect : ∀ acc r acc', collect acc r = some acc' → M.Collected r acc acc')
    (h : M.collectUse collect v acc u = some acc') : M.UseCollected v u acc acc' := by
  have hmem : v ∈ (M.op u).operands := M.mem_uses.1 hu
  cases hop : M.op u with
  | declare memref others results =>
    simp only [collectUse, hop] at h
    split at h
    · rename_i hv
      subst hv
      exact useCollected_declare hop hcollect h
    · cases h
  | convert value result =>
    simp only [collectUse, hop] at h
    have hv : v = value := by simpa [hop, Op.operands] using hmem
    subst hv
    have hres := hcollect acc result acc' h
    refine ⟨hres.sub, ⟨by simp [hop], by simp [hop], ?_⟩, ?_, hres.loads⟩
    · intro r hr
      rw [hop] at hr
      cases hr
      exact hres.all
    · exact fun w hw => (hres.writes w hw).imp_right (fun h => h.redeclared ⟨u, Or.inr hop⟩)
  | load memref result =>
    simp only [collectUse, hop] at h
    cases h
    refine ⟨⟨by simp, by simp⟩, ⟨by simp [hop], by simp [hop], by simp [hop]⟩,
      fun w hw => Or.inl hw, ?_⟩
    intro l hl
    rcases mem_append.1 hl with hl | hl
    · exact Or.inl hl
    · rw [mem_singleton.1 hl]
      exact Or.inr ⟨memref, result, hop⟩
  | store value memref =>
    -- refused where the address is what is stored
    simp only [collectUse, hop] at h
    split at h
    · cases h
    · rename_i hv
      cases h
      have hm : v = memref := by
        simp only [hop, Op.operands, mem_cons, not_mem_nil, or_false] at hmem
        exact hmem.resolve_left (fun h => hv h.symm)
      subst hm
      apply useCollected_write ⟨v, .refl, Or.inl ⟨value, hop⟩⟩
      exact ⟨by simp [hop, hv], by simp [hop], by simp [hop]⟩
  | assign rhs lhs scalarRhs =>
    simp only [collectUse, hop] at h
    split at h
    · cases h
    · rename_i hv
      cases h
      rw [not_or] at hv
      obtain ⟨hv, hscalar⟩ := hv
      have hscalar : scalarRhs = true := by simpa using hscalar
      subst hscalar
      have hm : v = lhs := by
        simp only [hop, Op.operands, mem_cons, not_mem_nil, or_false] at hmem
        exact hmem.resolve_left (fun h => hv h.symm)
      subst hm
      apply useCollected_write ⟨v, .refl, Or.inr ⟨rhs, hop⟩⟩
      exact ⟨by simp [hop, hv], by simp [hop], by simp [hop]⟩
  | alloca scalar sizes result => simp only [collectUse, hop] at h; cases h
  | terminator operands => simp only [collectUse, hop] at h; cases h
  | other operands results blocks => simp only [collectUse, hop] at h; cases h

omit [DecidableEq ι] in
/-- **`collectAccesses` is sound.** -/
theorem collectAccesses_sound (n : ℕ)
    (h : M.collectAccesses n acc v = some acc') : M.Collected v acc acc' := by
  induction n generalizing acc acc' v with
  | zero => cases h
  | succ n ih =>
    rw [collectAccesses] at h
    have hstep : ∀ s u s', u ∈ M.uses v → M.collectUse (M.collectAccesses n) v s u = some s' →
        M.UseCollected v u s s' :=
      fun s u s' hu hs => collectUse_sound hu (fun acc r acc' => ih) hs
    have hused := foldlM_forall_some (R := fun u t => M.Used v u t)
      (fun t u t' hu ht => (hstep t u t' hu ht).used)
      (fun t u u' t' hu ht hR => hR.mono (hstep t u' t' hu ht).sub) h
    constructor
    · exact foldlM_invariant_some (I := fun t => acc.Sub t)
        (fun t u t' hu ht hst => hst.trans (hstep t u t' hu ht).sub) h (Accesses.Sub.refl acc)
    · intro r hr
      rcases Relation.ReflTransGen.cases_head hr with rfl | ⟨x, ⟨u, hx⟩, hxr⟩
      · exact fun u hu => (hused u hu).pass
      · have hmem : v ∈ (M.op u).operands := by
          rcases hx with ⟨others, results, hop, -⟩ | hop <;> simp [hop, Op.operands]
        rcases hx with ⟨others, results, hop, hres⟩ | hop
        · exact (hused u (M.mem_uses.2 hmem)).declared others results hop x hres r hxr
        · exact (hused u (M.mem_uses.2 hmem)).converted x hop r hxr
    · exact foldlM_invariant_some (I := fun t => ∀ w ∈ t.writes, w ∈ acc.writes ∨ M.Writes v w)
        (fun t u t' hu ht hst w hw => ((hstep t u t' hu ht).writes w hw).elim (hst w) Or.inr) h
          (fun w hw => Or.inl hw)
    · exact foldlM_invariant_some
        (I := fun t => ∀ l ∈ t.loads, l ∈ acc.loads ∨ ∃ memref result, M.op l = .load memref result)
        (fun t u t' hu ht hst l hl => ((hstep t u t' hu ht).loads l hl).elim (hst l) Or.inr) h
          (fun l hl => Or.inl hl)

/-- An alloca whose address does not escape, with the accesses to its memory. -/
structure NonEscaping (M : Ir ι) (a : ι) (acc : Accesses ι) : Prop where
  scalar : (M.op a).isScalarAlloca = true
  accessed : ∀ v, M.Derived a v → M.Accessed acc v
  writes : ∀ w ∈ acc.writes, ∃ v, M.Derived a v ∧
    ((∃ value, M.op w = .store value v) ∨ ∃ rhs, M.op w = .assign rhs v true)
  loads : ∀ l ∈ acc.loads, ∃ memref result, M.op l = .load memref result

omit [DecidableEq ι] in
/-- **An alloca that `collectAccesses` lets pass does not escape.** -/
theorem nonEscaping_of_collect {a : ι} {sizes : List ValueId} {result : ValueId} {n : ℕ}
    {acc : Accesses ι}
    (hop : M.op a = .alloca true sizes result)
    (h : M.collectAccesses n ⟨[], []⟩ result = some acc) :
    M.NonEscaping a acc := by
  have hc := collectAccesses_sound n h
  constructor
  · simp [hop, Op.isScalarAlloca]
  · rintro v ⟨r, hr, hv⟩
    have hr : r = result := by simpa [hop, Op.results] using hr
    subst hr
    exact hc.all v hv
  · intro w hw
    rcases hc.writes w hw with hw | ⟨v, hv, hw⟩
    · cases hw
    · exact ⟨v, ⟨result, by simp [hop, Op.results], hv⟩, hw⟩
  · exact fun l hl => (hc.loads l hl).resolve_left (fun h => by cases h)

end Ir

end SinkStores

/-
# Moving an operation within its block

The operation of a block that another operation is nested in, what `moveAfter` does to the
order of a block, and that a write moved down keeps every operand defined before its use.
-/

namespace SinkStores

variable {ι : Type}

namespace Ir

variable {M : Ir ι}

/-! ## Nesting -/

/-- `findAncestorOpInBlock` by its next step outwards. -/
theorem findAncestorOpInBlock_eq (M : Ir ι) (b : BlockId) (o : ι) :
    M.findAncestorOpInBlock b o =
      if M.blockOf o = b then some o else (M.parentOf (M.blockOf o)).bind
        (M.findAncestorOpInBlock b) := by
  rw [findAncestorOpInBlock, climb]
  split
  · rfl
  · cases hp : M.parentOf (M.blockOf o) with
    | none => rfl
    | some p =>
      rw [M.level_parent hp]
      rfl

/-- An operation of the block is its own ancestor there. -/
theorem findAncestorOpInBlock_self (o : ι) : M.findAncestorOpInBlock (M.blockOf o) o = some o := by
  rw [findAncestorOpInBlock_eq, if_pos rfl]

variable {b b' : BlockId}

/-- Induction on the way from an operation up to its ancestor in a block. -/
theorem ancestor_induction {top : ι} {motive : ι → Prop} (self : M.blockOf top = b → motive top)
    (climb : ∀ o p, M.parentOf (M.blockOf o) = some p → M.findAncestorOpInBlock b p = some top →
      motive p → motive o)
    {o : ι} (h : M.findAncestorOpInBlock b o = some top) : motive o := by
  -- on how deep the operation is nested
  induction hn : M.level (M.blockOf o) using Nat.strongRecOn generalizing o with
  | _ n ih =>
    rw [findAncestorOpInBlock_eq] at h
    split at h
    · rename_i hb
      cases h
      exact self hb
    · cases hp : M.parentOf (M.blockOf o) with
      | none =>
        rw [hp] at h
        cases h
      | some p =>
        rw [hp] at h
        have hlevel := M.level_parent hp
        exact climb o p hp h (ih _ (by omega) h rfl)

/-- The ancestor stands in the block, which is no deeper than the operation's. -/
theorem ancestor_block {o top : ι} (h : M.findAncestorOpInBlock b o = some top) :
    M.blockOf top = b ∧ M.level b ≤ M.level (M.blockOf o) ∧
      (M.level b = M.level (M.blockOf o) → M.blockOf o = b) := by
  refine ancestor_induction (motive := fun o => M.blockOf top = b ∧
    M.level b ≤ M.level (M.blockOf o) ∧
    (M.level b = M.level (M.blockOf o) → M.blockOf o = b)) ?_ ?_ h
  · intro hb
    exact ⟨hb, Nat.le_of_eq (by rw [hb]), fun _ => hb⟩
  · rintro o p hp - ⟨htop, hle, -⟩
    have hlevel := M.level_parent hp
    exact ⟨htop, by omega, fun heq => by omega⟩

/-- What is nested in an operation has its ancestor. -/
theorem ancestor_nested {o o' top : ι} (h : M.findAncestorOpInBlock b o = some top)
    (hb' : b' ∈ (M.op o).blocks) (ho' : M.blockOf o' = b') :
    M.findAncestorOpInBlock b o' = some top := by
  have hp := M.parent_blocks.1 hb'
  have hlevel := M.level_parent hp
  have hle := (ancestor_block h).2.1
  rw [findAncestorOpInBlock_eq, if_neg, ho', hp]
  · exact h
  · intro hb
    rw [← hb, ho'] at hle
    omega

/-- Blocks that one dominates are as deep. -/
theorem level_of_dominates (h : M.dominates b b') : M.level b = M.level b' := by
  have hp := M.parent_dominates h
  cases hb : M.parentOf b with
  | none => rw [M.level_top hb, M.level_top (by rw [← hp, hb])]
  | some o => rw [M.level_parent hb, M.level_parent (hp.symm.trans hb)]

/-! ## The order of a block -/

end Ir

variable [DecidableEq ι]

/-- The positions behind an element of a list. -/
theorem idxOf_lt_iff {l p q : List ι} {x y : ι} (hl : l = p ++ x :: q)
    (hnodup : l.Nodup) (hy : y ∈ l) :
    l.idxOf x < l.idxOf y ↔ y ∈ q := by
  subst hl
  have hx : x ∉ p := by
    intro hx
    exact (nodup_append.1 hnodup).2.2 x hx x (by simp) rfl
  have hidx : (p ++ x :: q).idxOf x = p.length := by
    rw [idxOf_append_of_notMem hx, idxOf_cons_self, Nat.add_zero]
  rw [hidx]
  rcases mem_append.1 hy with hyp | hyq
  · have hlt : (p ++ x :: q).idxOf y < p.length := by
      rw [idxOf_append_of_mem hyp]
      exact idxOf_lt_length_of_mem hyp
    constructor
    · intro h
      omega
    · intro hq
      exact ((nodup_append.1 hnodup).2.2 y hyp y (by simp [hq]) rfl).elim
  · have hyp : y ∉ p := fun hp => (nodup_append.1 hnodup).2.2 y hp y hyq rfl
    rw [idxOf_append_of_notMem hyp]
    rcases mem_cons.1 hyq with rfl | hq
    · rw [idxOf_cons_self]
      constructor
      · intro h
        omega
      · intro hq
        have := (nodup_append.1 hnodup).2.1
        exact ((nodup_cons.1 this).1 hq).elim
    · have hne : y ≠ x := by
        rintro rfl
        exact (nodup_cons.1 (nodup_append.1 hnodup).2.1).1 hq
      rw [idxOf_cons_ne _ (Ne.symm hne)]
      constructor
      · exact fun _ => hq
      · intro _
        omega

namespace Ir

variable {M : Ir ι} {L : Layout ι}

theorem insertAfter_append {last o : ι} {p q : List ι} (hp : last ∉ p) :
    insertAfter last o (p ++ last :: q) = p ++ last :: o :: q := by
  induction p with
  | nil => simp [insertAfter]
  | cons x p ih =>
    rw [mem_cons, not_or] at hp
    rw [cons_append, insertAfter, if_neg (Ne.symm hp.1), ih hp.2, cons_append]

/-- What a move down does to the order of the block. -/
structure MovesDown (M : Ir ι) (L : Layout ι) (o last : ι) (pre mid post : List ι) : Prop where
  before : L (M.blockOf o) = pre ++ o :: (mid ++ post)
  after : M.moveAfter L o last (M.blockOf o) = pre ++ (mid ++ o :: post)
  range : ∀ x ∈ mid, M.isBeforeInBlock L o x = true ∧ M.isBeforeInBlock L last x = false
  last_iff : ∀ x, M.blockOf x = M.blockOf o → (M.isBeforeInBlock L last x = true ↔ x ∈ post)

theorem isBeforeInBlock_iff (hL : M.Arranged L) {x y : ι} {p q : List ι}
    (hl : L (M.blockOf x) = p ++ x :: q)
    (hy : M.blockOf y = M.blockOf x) : M.isBeforeInBlock L x y = true ↔ y ∈ q := by
  rw [isBeforeInBlock, decide_eq_true_iff]
  exact idxOf_lt_iff hl (hL.nodup _) (hL.mem_iff.2 hy)

variable {o last : ι} {pre mid post : List ι}

/-- **A move to below a later operation of the block.** -/
theorem movesDown (hL : M.Arranged L) (hblock : M.blockOf last = M.blockOf o)
    (hbefore : M.isBeforeInBlock L o last = true) :
    ∃ pre mid post, M.MovesDown L o last pre mid post := by
  obtain ⟨pre, rest, hpre⟩ := append_of_mem (hL.mem_iff.2 (rfl : M.blockOf o = M.blockOf o))
  obtain ⟨mid, post, rfl⟩ := append_of_mem ((isBeforeInBlock_iff hL hpre hblock).1 hbefore)
  have hnodup := hL.nodup (M.blockOf o)
  rw [hpre] at hnodup
  have ho : o ∉ pre := fun h => (nodup_append.1 hnodup).2.2 o h o (by simp) rfl
  have hlast : last ∉ pre ++ mid := by
    intro h
    rcases mem_append.1 h with h | h
    · exact (nodup_append.1 hnodup).2.2 last h last (by simp) rfl
    · have h₂ := (nodup_cons.1 (nodup_append.1 hnodup).2.1).2
      exact (nodup_append.1 h₂).2.2 last h last (by simp) rfl
  have hsplit : L (M.blockOf last) = (pre ++ o :: mid) ++ last :: post := by
    rw [hblock, hpre]
    simp
  -- `o` leaves its place in front of `mid` for the one behind `last`
  refine ⟨pre, mid ++ [last], post, ?_, ?_, ?_,
    fun x hx => isBeforeInBlock_iff hL hsplit (hx.trans hblock.symm)⟩
  · rw [hpre]
    simp
  · rw [moveAfter, Function.update_self, hpre, erase_append_right _ ho,
      erase_cons_head, ← append_assoc,
      insertAfter_append hlast]
    simp
  · intro x hx
    have hxmem : x ∈ L (M.blockOf o) := by
      rw [hpre]
      rcases mem_append.1 hx with hx | hx
      · simp [hx]
      · rw [mem_singleton.1 hx]
        simp
    have hxo : M.blockOf x = M.blockOf o := hL.mem_iff.1 hxmem
    refine ⟨(isBeforeInBlock_iff hL hpre hxo).2 ?_, ?_⟩
    · rcases mem_append.1 hx with hx | hx
      · simp [hx]
      · rw [mem_singleton.1 hx]
        simp
    · rw [Bool.eq_false_iff]
      intro h
      have hpost := (isBeforeInBlock_iff hL hsplit (hxo.trans hblock.symm)).1 h
      have h₂ := (nodup_cons.1 (nodup_append.1 hnodup).2.1).2
      rcases mem_append.1 hx with hx | hx
      · exact (nodup_append.1 h₂).2.2 x hx x (by simp [hpost]) rfl
      · rw [mem_singleton.1 hx] at hpost
        exact (nodup_cons.1 (nodup_append.1 h₂).2.1).1 hpost

theorem moveAfter_other {b : BlockId} (hb : b ≠ M.blockOf o) : M.moveAfter L o last b = L b := by
  rw [moveAfter, Function.update_of_ne hb]

/-- A move only permutes a block. -/
theorem moveAfter_perm (hmove : M.MovesDown L o last pre mid post)
    (b : BlockId) : (M.moveAfter L o last b).Perm (L b) := by
  by_cases hb : b = M.blockOf o
  · subst hb
    rw [hmove.after, hmove.before]
    exact List.Perm.append_left pre perm_middle
  · rw [moveAfter_other hb]

/-- **A move keeps each operation in its block, once.** -/
theorem moveAfter_arranged (hL : M.Arranged L)
    (hmove : M.MovesDown L o last pre mid post) : M.Arranged (M.moveAfter L o last) where
  mem_iff := fun {b x} => by rw [(moveAfter_perm hmove b).mem_iff, hL.mem_iff]
  nodup := fun b => (moveAfter_perm hmove b).nodup_iff.2 (hL.nodup b)

/-- Operations other than the moved one keep their order, and it only moves down. -/
theorem isBeforeInBlock_move (hL : M.Arranged L) {o last x y : ι}
    (hmove : M.MovesDown L o last pre mid post) (hx : x ≠ o) (hxy : M.blockOf y = M.blockOf x)
    (h : M.isBeforeInBlock L x y = true) : M.isBeforeInBlock (M.moveAfter L o last) x y = true := by
  have hL' := moveAfter_arranged hL hmove
  by_cases hb : M.blockOf x = M.blockOf o
  · obtain ⟨p, q, hpq⟩ := append_of_mem (hL'.mem_iff.2 (rfl : M.blockOf x = M.blockOf x))
    rw [isBeforeInBlock_iff hL' hpq hxy]
    have hbefore := hmove.before
    have hafter := hmove.after
    rw [← hb] at hbefore hafter
    rw [hafter] at hpq
    have hmem : x ∈ pre ++ (mid ++ o :: post) := by
      rw [hpq]
      simp
    -- where `x` stands, and what stood behind it
    have hnodup := hL'.nodup (M.blockOf x)
    rw [hafter] at hnodup
    have hy : y ∈ pre ++ (mid ++ o :: post) := by
      rw [← hafter]
      exact hL'.mem_iff.2 hxy
    have hidx := idxOf_lt_iff hpq hnodup hy
    rw [← hidx]
    simp only [mem_append, mem_cons] at hmem
    rcases hmem with hm | hm | rfl | hm
    · obtain ⟨p₁, p₂, rfl⟩ := append_of_mem hm
      have hold : y ∈ p₂ ++ o :: (mid ++ post) :=
        (isBeforeInBlock_iff (p := p₁) hL (by rw [hbefore]; simp) hxy).1 h
      rw [idxOf_lt_iff (p := p₁) (q := p₂ ++ (mid ++ o :: post)) (by simp) hnodup hy]
      simp only [mem_append, mem_cons] at hold ⊢
      tauto
    · obtain ⟨m₁, m₂, rfl⟩ := append_of_mem hm
      have hold : y ∈ m₂ ++ post :=
        (isBeforeInBlock_iff (p := pre ++ o :: m₁) hL (by rw [hbefore]; simp) hxy).1 h
      rw [idxOf_lt_iff (p := pre ++ m₁) (q := m₂ ++ o :: post) (by simp) hnodup hy]
      simp only [mem_append, mem_cons] at hold ⊢
      tauto
    · exact (hx rfl).elim
    · obtain ⟨q₁, q₂, rfl⟩ := append_of_mem hm
      have hold : y ∈ q₂ :=
        (isBeforeInBlock_iff (p := pre ++ o :: (mid ++ q₁)) hL (by rw [hbefore]; simp) hxy).1 h
      rw [idxOf_lt_iff (p := pre ++ (mid ++ o :: q₁)) (q := q₂) (by simp) hnodup hy]
      exact hold
  · rw [isBeforeInBlock, moveAfter_other hb]
    exact h

/-- What the moved operation stands in front of. -/
theorem isBeforeInBlock_moved (hL : M.Arranged L) {o last x : ι}
    (hmove : M.MovesDown L o last pre mid post) (hx : M.blockOf x = M.blockOf o) :
    M.isBeforeInBlock (M.moveAfter L o last) o x = M.isBeforeInBlock L last x := by
  have hafter : M.moveAfter L o last (M.blockOf o) = (pre ++ mid) ++ o :: post := by
    rw [hmove.after, append_assoc]
  have hiff := isBeforeInBlock_iff (moveAfter_arranged hL hmove) hafter hx
  rw [Bool.eq_iff_iff, hiff, hmove.last_iff x hx]

/-! ## Operands -/

/-- Every operand is defined before its use: the operation that defines it stands in front of the
user, or of what the user is nested in, or in a block that dominates one around the user; an
argument's block is around the user, or dominates one that is. -/
structure OperandsDefined (M : Ir ι) (L : Layout ι) : Prop where
  results : ∀ {d o v}, v ∈ (M.op d).results → v ∈ (M.op o).operands →
    ∃ b top, M.findAncestorOpInBlock b o = some top ∧
    (b = M.blockOf d ∧ M.isBeforeInBlock L d top = true ∨ M.dominates (M.blockOf d) b)
  args : ∀ {b o v}, v ∈ M.args b → v ∈ (M.op o).operands →
    ∃ b' top, M.findAncestorOpInBlock b' o = some top ∧
    (b' = b ∨ M.dominates b b')

/-- **A write that moves down keeps every operand defined before its use.** -/
theorem moveAfter_operandsDefined (hL : M.Arranged L)
    (hmove : M.MovesDown L o last pre mid post) (ho : (M.op o).results = [])
    (h : M.OperandsDefined L) :
    M.OperandsDefined (M.moveAfter L o last) where
  results := by
    intro d u v hd hu
    obtain ⟨b, top, htop, hdef⟩ := h.results hd hu
    refine ⟨b, top, htop, hdef.imp_left ?_⟩
    rintro ⟨rfl, hbefore⟩
    refine ⟨rfl, isBeforeInBlock_move hL hmove ?_ (ancestor_block htop).1 hbefore⟩
    rintro rfl
    rw [ho] at hd
    cases hd
  args := h.args

/-- What is nested in an operation behind a use does not define it. -/
theorem not_defined_behind (h : M.OperandsDefined L) {w x d : ι} {v : ValueId}
    (hv : v ∈ (M.op w).operands) (hx : M.isBeforeInBlock L w x = true)
    (hblock : M.blockOf x = M.blockOf w)
    (hd : M.findAncestorOpInBlock (M.blockOf w) d = some x) : v ∉ (M.op d).results := by
  intro hres
  obtain ⟨b, top, htop, hdef⟩ := h.results hres hv
  obtain ⟨-, hle, heq⟩ := ancestor_block htop
  obtain ⟨-, hle', heq'⟩ := ancestor_block hd
  have hlevel : M.level b = M.level (M.blockOf d) := by
    rcases hdef with ⟨rfl, -⟩ | hdom
    · rfl
    · exact (level_of_dominates hdom).symm
  have hb : M.blockOf w = b := heq (by omega)
  have hdw : M.blockOf d = M.blockOf w := heq' (by omega)
  have hdx : d = x := by
    rw [findAncestorOpInBlock_eq, if_pos hdw] at hd
    exact Option.some.inj hd
  subst hdx
  rcases hdef with ⟨-, hbefore⟩ | hdom
  · have htw : top = w := by
      rw [findAncestorOpInBlock_eq, if_pos hb] at htop
      exact (Option.some.inj htop).symm
    subst htw
    rw [isBeforeInBlock, decide_eq_true_iff] at hx hbefore
    rw [hdw] at hbefore
    omega
  · rw [hdw, hb] at hdom
    exact M.not_dominates_self hdom

end Ir

end SinkStores
