/-
# The last use of an overwritten value

The values computed from the loads ahead of a write, and that `lastUseOfOverwrittenValue`
finds the last operation of the block behind the write that uses one of them, or finds that
one is used where the write cannot follow.
-/
import DaceFortran.SinkStores.Moves

open List

namespace SinkStores

open Fallible

variable {ι : Type} [DecidableEq ι]

namespace Ir

variable {M : Ir ι} {L : Layout ι} {write : ι} {loads : List ι}

/-! ## Computed values -/

/-- The values computed, directly or not, from the loads ahead of `write` in its block. -/
inductive Computed (M : Ir ι) (L : Layout ι) (write : ι) (loads : List ι) : ValueId → Prop
  | loaded {ld : ι} {v : ValueId} : ld ∈ loads → M.blockOf ld = M.blockOf write →
      M.isBeforeInBlock L ld write = true → v ∈ (M.op ld).results → Computed M L write loads v
  | through {v r : ValueId} {u top : ι} : Computed M L write loads v → u ∈ M.uses v → u ≠ write →
      M.findAncestorOpInBlock (M.blockOf write) u = some top → r ∈ (M.op top).results →
        Computed M L write loads r

/-- An operation of the block that uses a computed value, itself or in what is nested in it. -/
def UsesComputed (M : Ir ι) (L : Layout ι) (write : ι) (loads : List ι) (top : ι) : Prop :=
  ∃ v u, M.Computed L write loads v ∧ u ∈ M.uses v ∧ u ≠ write ∧
    M.findAncestorOpInBlock (M.blockOf write) u = some top

/-- A user of a value outside the block, or the block's terminator. -/
def Unreachable (M : Ir ι) (write u : ι) : Prop :=
  M.findAncestorOpInBlock (M.blockOf write) u = none ∨
    ∃ top, M.findAncestorOpInBlock (M.blockOf write) u = some top ∧ (M.op top).isTerminator = true

/-- A computed value is used where the write cannot follow. -/
def StuckUse (M : Ir ι) (L : Layout ι) (write : ι) (loads : List ι) : Prop :=
  ∃ v u, M.Computed L write loads v ∧ u ∈ M.uses v ∧ u ≠ write ∧ M.Unreachable write u

variable {v : ValueId} {u x y : ι}

theorem mem_loadedBefore : v ∈ M.loadedBefore L write loads ↔
    ∃ ld ∈ loads, M.blockOf ld = M.blockOf write ∧ M.isBeforeInBlock L ld write = true ∧
      v ∈ (M.op ld).results := by
  simp only [loadedBefore, mem_flatMap, mem_filter, decide_eq_true_eq]
  constructor
  · rintro ⟨ld, ⟨hld, hblock, hbefore⟩, hv⟩
    exact ⟨ld, hld, hblock, hbefore, hv⟩
  · rintro ⟨ld, hld, hblock, hbefore, hv⟩
    exact ⟨ld, ⟨hld, hblock, hbefore⟩, hv⟩

/-! ## One user -/

/-- What `visitUser` does. -/
theorem visitUser_cases {s s' : Search ι} (h : M.visitUser L write s u = some s') :
    u = write ∧ s' = s ∨ u ≠ write ∧ ∃ top, M.findAncestorOpInBlock (M.blockOf write) u = some top ∧
      (M.op top).isTerminator = false ∧
      s'.work = (if top ∈ s.seen then s.work else (M.op top).results.reverse ++ s.work) ∧
      s'.seen = (if top ∈ s.seen then s.seen else top :: s.seen) ∧
      s'.last = (if M.isBeforeInBlock L write top &&
        s.last.all (fun last => M.isBeforeInBlock L last top) then some top
        else s.last) := by
  rw [visitUser] at h
  split at h
  · rename_i hu
    cases h
    exact Or.inl ⟨hu, rfl⟩
  · rename_i hu
    split at h
    · cases h
    · rename_i top htop
      split at h
      · cases h
      · rename_i hterm
        cases h
        exact Or.inr ⟨hu, top, htop, by simpa using hterm, rfl, rfl, rfl⟩

/-- Where `visitUser` gives up. -/
theorem visitUser_none {s : Search ι} (h : M.visitUser L write s u = none) :
    u ≠ write ∧ M.Unreachable write u := by
  rw [visitUser] at h
  split at h
  · cases h
  · rename_i hu
    refine ⟨hu, ?_⟩
    split at h
    · rename_i hnone
      exact Or.inl hnone
    · rename_i top htop
      split at h
      · rename_i hterm
        exact Or.inr ⟨top, htop, hterm⟩
      · cases h

/-- A user has been taken into account. -/
def UserDone (M : Ir ι) (L : Layout ι) (write : ι) (s : Search ι) (u : ι) : Prop :=
  u ≠ write → ∃ top, M.findAncestorOpInBlock (M.blockOf write) u = some top ∧
    (M.op top).isTerminator = false ∧
    top ∈ s.seen ∧ (M.isBeforeInBlock L write top = true →
      ∃ last, s.last = some last ∧ M.isBeforeInBlock L last top = false)

/-- The last use so far uses a computed value and stands behind the write. -/
def LastUsed (M : Ir ι) (L : Layout ι) (write : ι) (loads : List ι) (s : Search ι) : Prop :=
  ∀ last, s.last = some last → M.UsesComputed L write loads last ∧
    M.isBeforeInBlock L write last = true

theorem UsesComputed.block {top : ι} (h : M.UsesComputed L write loads top) :
    M.blockOf top = M.blockOf write := by
  obtain ⟨v, u, -, -, -, htop⟩ := h
  exact (ancestor_block htop).1

/-- The positions of three operations of a block. -/
theorem isBeforeInBlock_trans {z : ι} (hxy : M.blockOf y = M.blockOf x)
    (h₁ : M.isBeforeInBlock L x y = true)
    (h₂ : M.isBeforeInBlock L y z = true) : M.isBeforeInBlock L x z = true := by
  rw [isBeforeInBlock, decide_eq_true_iff] at h₁ h₂ ⊢
  rw [hxy] at h₂
  omega

theorem isBeforeInBlock_asymm (hxy : M.blockOf y = M.blockOf x)
    (h : M.isBeforeInBlock L x y = true) :
    M.isBeforeInBlock L y x = false := by
  rw [isBeforeInBlock, decide_eq_true_iff] at h
  rw [isBeforeInBlock, decide_eq_false_iff_not, hxy]
  omega

theorem isBeforeInBlock_irrefl (x : ι) : M.isBeforeInBlock L x x = false := by
  simp [isBeforeInBlock]

theorem isBeforeInBlock_total (hL : M.Arranged L) (hxy : M.blockOf y = M.blockOf x) (hne : x ≠ y)
    (h : M.isBeforeInBlock L x y = false) : M.isBeforeInBlock L y x = true := by
  rw [isBeforeInBlock, decide_eq_false_iff_not] at h
  rw [isBeforeInBlock, decide_eq_true_iff, hxy]
  have hx : x ∈ L (M.blockOf x) := hL.mem_iff.2 rfl
  have hidx : (L (M.blockOf x)).idxOf x ≠ (L (M.blockOf x)).idxOf y :=
    fun heq => hne ((idxOf_inj hx).1 heq)
  omega

/-- What one user adds to the search. -/
structure Visited (M : Ir ι) (L : Layout ι) (write : ι) (s s' : Search ι) : Prop where
  work : s.work ⊆ s'.work
  done : ∀ u, M.UserDone L write s u → M.UserDone L write s' u
  pushed : ∀ o ∈ s'.seen, o ∈ s.seen ∨ ∀ v ∈ (M.op o).results, v ∈ s'.work

theorem Visited.refl (s : Search ι) : M.Visited L write s s :=
  ⟨List.Subset.refl _, fun _ h => h, fun _ h => Or.inl h⟩

theorem Visited.trans {s s₁ s₂ : Search ι} (h₁ : M.Visited L write s s₁)
    (h₂ : M.Visited L write s₁ s₂) :
    M.Visited L write s s₂ where
  work := List.Subset.trans h₁.work h₂.work
  done := fun u h => h₂.done u (h₁.done u h)
  pushed := by
    intro o ho
    rcases h₂.pushed o ho with ho | hv
    · rcases h₁.pushed o ho with ho | hv
      · exact Or.inl ho
      · exact Or.inr (fun v h => h₂.work (hv v h))
    · exact Or.inr hv

/-- The invariant of the search, besides what is still to be followed. -/
structure SearchInv (M : Ir ι) (L : Layout ι) (write : ι) (loads : List ι) (s : Search ι) :
    Prop where
  work : ∀ v ∈ s.work, M.Computed L write loads v
  last : M.LastUsed L write loads s

section Last

variable {s s' : Search ι} {top : ι}
  (hlast : s'.last = if M.isBeforeInBlock L write top &&
    s.last.all (fun last => M.isBeforeInBlock L last top) then
    some top else s.last)
include hlast

theorem lastUsed_next (hused : M.UsesComputed L write loads top) (hs : M.LastUsed L write loads s) :
    M.LastUsed L write loads s' := by
  intro last hl
  rw [hlast] at hl
  split at hl
  · rename_i hcond
    cases hl
    rw [Bool.and_eq_true] at hcond
    exact ⟨hused, hcond.1⟩
  · exact hs last hl

/-- The new last use is no earlier than the old one. -/
theorem last_later (hused : M.UsesComputed L write loads top)
    (hs : M.LastUsed L write loads s) {last : ι}
    (heq : s.last = some last) :
    ∃ last', s'.last = some last' ∧ ∀ x, M.isBeforeInBlock L last x = false →
      M.isBeforeInBlock L last' x = false := by
  split at hlast
  · rename_i hcond
    refine ⟨top, hlast, fun x hfalse => ?_⟩
    rw [heq, Bool.and_eq_true] at hcond
    by_contra hbefore
    rw [Bool.not_eq_false] at hbefore
    have htrans := isBeforeInBlock_trans (hused.block.trans (hs last heq).1.block.symm)
      (by simpa using hcond.2) hbefore
    rw [htrans] at hfalse
    cases hfalse
  · exact ⟨last, hlast.trans heq, fun x hfalse => hfalse⟩

/-- The new last use is no earlier than the operation just met. -/
theorem last_behind (hbefore : M.isBeforeInBlock L write top = true) :
    ∃ last, s'.last = some last ∧ M.isBeforeInBlock L last top = false := by
  split at hlast
  · exact ⟨top, hlast, isBeforeInBlock_irrefl top⟩
  · rename_i hcond
    rw [hbefore, Bool.true_and] at hcond
    cases hold : s.last with
    | none => simp [hold] at hcond
    | some last =>
      rw [hold] at hcond
      exact ⟨last, hlast.trans hold, by simpa using hcond⟩

end Last

/-- **One user of a computed value.** -/
theorem visitUser_inv {s s' : Search ι} (hv : M.Computed L write loads v) (hu : u ∈ M.uses v)
    (h : M.visitUser L write s u = some s') (hs : M.SearchInv L write loads s) :
    M.SearchInv L write loads s' ∧ M.Visited L write s s' ∧ M.UserDone L write s' u := by
  rcases visitUser_cases h with ⟨rfl, rfl⟩ | ⟨hne, top, htop, hterm, hwork, hseen, hlast⟩
  · exact ⟨hs, Visited.refl _, fun hne => (hne rfl).elim⟩
  · have hused : M.UsesComputed L write loads top := ⟨v, u, hv, hu, hne, htop⟩
    have hsub : s.seen ⊆ s'.seen := by
      rw [hseen]
      split
      · exact List.Subset.refl _
      · exact subset_cons_self top s.seen
    refine ⟨⟨?_, lastUsed_next hlast hused hs.last⟩, ⟨?_, ?_, ?_⟩, ?_⟩
    · intro x hx
      rw [hwork] at hx
      split at hx
      · exact hs.work x hx
      · rcases mem_append.1 hx with hx | hx
        · exact .through hv hu hne htop (mem_reverse.1 hx)
        · exact hs.work x hx
    · rw [hwork]
      split
      · exact List.Subset.refl _
      · exact subset_append_right _ _
    · intro u' hdone hne'
      obtain ⟨top', htop', hterm', hmem, hbehind⟩ := hdone hne'
      refine ⟨top', htop', hterm', hsub hmem, fun hbefore => ?_⟩
      obtain ⟨last, heq, hfalse⟩ := hbehind hbefore
      obtain ⟨last', heq', hle⟩ := last_later hlast hused hs.last heq
      exact ⟨last', heq', hle top' hfalse⟩
    · intro o ho
      rw [hseen] at ho
      split at ho
      · exact Or.inl ho
      · rename_i hnew
        rcases mem_cons.1 ho with rfl | ho
        · refine Or.inr (fun r hr => ?_)
          rw [hwork, if_neg hnew]
          exact mem_append_left _ (mem_reverse.2 hr)
        · exact Or.inl ho
    · intro _
      refine ⟨top, htop, hterm, ?_, last_behind hlast⟩
      rw [hseen]
      split
      · rename_i hold
        exact hold
      · exact mem_cons_self

/-! ## The work loop -/

/-- The values still to come onto the stack, and those on it. -/
def workLeft (M : Ir ι) (L : Layout ι) (write : ι) (s : Search ι) : ℕ :=
  s.work.length + (((L (M.blockOf write)).filter (fun o => o ∉ s.seen)).flatMap
    (fun o => (M.op o).results)).length

end Ir

/-- The elements of a list without another one. -/
theorem length_flatMap_filter {β : Type} (f : ι → List β) {l seen : List ι} {x : ι}
    (hnodup : l.Nodup) (hx : x ∈ l)
    (hseen : x ∉ seen) : ((l.filter (fun o => o ∉ x :: seen)).flatMap f).length + (f x).length =
      ((l.filter (fun o => o ∉ seen)).flatMap f).length := by
  induction l with
  | nil => cases hx
  | cons y l ih =>
    rw [nodup_cons] at hnodup
    by_cases hyx : y = x
    · subst hyx
      have hrest : l.filter (fun o => o ∉ y :: seen) = l.filter (fun o => o ∉ seen) := by
        apply filter_congr
        intro o ho
        have hne : o ≠ y := by
          rintro rfl
          exact hnodup.1 ho
        simp [hne]
      rw [filter_cons_of_neg (by simp), filter_cons_of_pos (by simpa using hseen),
        hrest, flatMap_cons,
        length_append]
      omega
    · have hx : x ∈ l := (mem_cons.1 hx).resolve_left (fun h => hyx h.symm)
      have hl := ih hnodup.2 hx
      by_cases hy : y ∈ seen
      · rw [filter_cons_of_neg (by simp [hy]), filter_cons_of_neg (by simp [hy])]
        exact hl
      · rw [filter_cons_of_pos (by simp [hy, hyx]), filter_cons_of_pos (by simp [hy]), flatMap_cons,
          flatMap_cons, length_append, length_append]
        omega

namespace Ir

variable {M : Ir ι} {L : Layout ι} {write : ι} {loads : List ι}

theorem visitUser_workLeft (hL : M.Arranged L) {s s' : Search ι} {u : ι}
    (h : M.visitUser L write s u = some s') :
    M.workLeft L write s' = M.workLeft L write s := by
  rcases visitUser_cases h with ⟨-, rfl⟩ | ⟨-, top, htop, -, hwork, hseen, -⟩
  · rfl
  · rw [workLeft, workLeft, hwork, hseen]
    split
    · rfl
    · rename_i hnew
      have := length_flatMap_filter (fun o => (M.op o).results) (hL.nodup (M.blockOf write))
        (hL.mem_iff.2 (ancestor_block htop).1) hnew
      rw [length_append, length_reverse]
      omega

/-- A value whose users have all been taken into account. -/
def ValueDone (M : Ir ι) (L : Layout ι) (write : ι) (s : Search ι) (v : ValueId) : Prop :=
  ∀ u ∈ M.uses v, M.UserDone L write s u

/-- Every value met is on the stack, or done. -/
def Followed (M : Ir ι) (L : Layout ι) (write : ι) (loads : List ι) (s : Search ι) : Prop :=
  ∀ v, (v ∈ M.loadedBefore L write loads ∨ ∃ o ∈ s.seen, v ∈ (M.op o).results) →
    v ∈ s.work ∨ M.ValueDone L write s v

/-- The users of a computed value, one by one. -/
theorem visitUsers_spec (hL : M.Arranged L) {v : ValueId} (hv : M.Computed L write loads v)
    {users : List ι}
    (husers : users ⊆ M.uses v) {s s' : Search ι}
    (h : users.foldlM (M.visitUser L write) s = some s')
    (hs : M.SearchInv L write loads s) :
    M.SearchInv L write loads s' ∧ M.Visited L write s s' ∧ (∀ u ∈ users, M.UserDone L write s' u) ∧
      M.workLeft L write s' = M.workLeft L write s := by
  induction users generalizing s with
  | nil =>
    cases h
    exact ⟨hs, Visited.refl _, fun u hu => (not_mem_nil hu).elim, rfl⟩
  | cons u users ih =>
    rw [cons_subset] at husers
    rw [foldlM_cons] at h
    obtain ⟨s₁, h₁, h₂⟩ := Option.bind_eq_some_iff.1 h
    obtain ⟨hinv₁, hvis₁, hdone₁⟩ := visitUser_inv hv husers.1 h₁ hs
    obtain ⟨hinv, hvis, hdone, hleft⟩ := ih husers.2 h₂ hinv₁
    refine ⟨hinv, hvis₁.trans hvis, ?_, hleft.trans (visitUser_workLeft hL h₁)⟩
    intro x hx
    rcases mem_cons.1 hx with rfl | hx
    · exact hvis.done x hdone₁
    · exact hdone x hx

/-- **The work loop**: it gives up only at a use that cannot be followed, and ends with every value
done. -/
theorem followUses_spec (hL : M.Arranged L) (n : ℕ) {s : Search ι}
    (hs : M.SearchInv L write loads s)
    (hf : M.Followed L write loads s) (hn : M.workLeft L write s ≤ n) :
    match M.followUses L write n s with
    | none => M.StuckUse L write loads
    | some s' => M.SearchInv L write loads s' ∧ M.Followed L write loads s' ∧ s'.work = [] := by
  -- on the bound of what is left to do
  induction n generalizing s with
  | zero =>
    refine ⟨hs, hf, ?_⟩
    rw [← length_eq_zero_iff]
    rw [workLeft] at hn
    omega
  | succ n ih =>
    rw [followUses]
    cases hwork : s.work with
    | nil => exact ⟨hs, hf, hwork⟩
    | cons v work =>
      have hv := hs.work v (by rw [hwork]; exact mem_cons_self)
      have hs₀ : M.SearchInv L write loads { s with work := work } :=
        ⟨fun x hx => hs.work x (by rw [hwork]; exact mem_cons_of_mem v hx), hs.last⟩
      simp only
      cases hfold : (M.uses v).foldlM (M.visitUser L write) { s with work := work } with
      | none =>
        obtain ⟨u, hu, t, ht⟩ := exists_none_of_foldlM hfold
        obtain ⟨hne, hstuck⟩ := visitUser_none ht
        exact ⟨v, u, hv, hu, hne, hstuck⟩
      | some s₁ =>
        rw [Option.bind_some]
        obtain ⟨hinv₁, hvis, hdone, hleft⟩ := visitUsers_spec hL hv (List.Subset.refl _) hfold hs₀
        apply ih hinv₁
        · -- a value met before is on the stack still, or its users were the ones just visited
          intro x hx
          have hold : (x ∈ M.loadedBefore L write loads ∨ ∃ o ∈ s.seen, x ∈ (M.op o).results) ∨
              x ∈ s₁.work := by
            rcases hx with hx | ⟨o, ho, hx⟩
            · exact Or.inl (Or.inl hx)
            · rcases hvis.pushed o ho with ho | hpushed
              · exact Or.inl (Or.inr ⟨o, ho, hx⟩)
              · exact Or.inr (hpushed x hx)
          rcases hold with hold | hx
          · rcases hf x hold with hx | hx
            · rw [hwork] at hx
              rcases mem_cons.1 hx with rfl | hx
              · exact Or.inr hdone
              · exact Or.inl (hvis.work hx)
            · exact Or.inr (fun u hu => hvis.done u (hx u hu))
          · exact Or.inl hx
        · rw [hleft]
          rw [workLeft, hwork, length_cons] at hn
          rw [workLeft]
          simp only
          omega

/-- Nothing behind the write uses a value computed from a load ahead of it. -/
def Settled (M : Ir ι) (L : Layout ι) (write : ι) (loads : List ι) : Prop :=
  ∀ top, M.UsesComputed L write loads top → M.isBeforeInBlock L write top = false

/-- The last operation behind the write that uses a value computed from a load ahead of it. -/
structure IsLastUse (M : Ir ι) (L : Layout ι) (write : ι) (loads : List ι) (last : ι) : Prop where
  used : M.UsesComputed L write loads last
  behind : M.isBeforeInBlock L write last = true
  greatest : ∀ top, M.UsesComputed L write loads top → M.isBeforeInBlock L last top = false

/-- Once every value met is done, every computed value is. -/
theorem valueDone_of_computed {s : Search ι} (hf : M.Followed L write loads s)
    (hwork : s.work = []) {v : ValueId}
    (hv : M.Computed L write loads v) : M.ValueDone L write s v := by
  have hdone : ∀ v, (v ∈ M.loadedBefore L write loads ∨ ∃ o ∈ s.seen, v ∈ (M.op o).results) →
      M.ValueDone L write s v := by
    intro v hv
    refine (hf v hv).resolve_left ?_
    rw [hwork]
    exact not_mem_nil
  induction hv with
  | loaded hld hblock hbefore hres =>
      exact hdone _ (Or.inl (mem_loadedBefore.2 ⟨_, hld, hblock, hbefore, hres⟩))
  | through _ hu hne htop hr ih =>
    obtain ⟨top', htop', -, hseen, -⟩ := ih _ hu hne
    rw [htop] at htop'
    cases htop'
    exact hdone _ (Or.inr ⟨_, hseen, hr⟩)

section Done

variable {s : Search ι} (hdone : ∀ v, M.Computed L write loads v → M.ValueDone L write s v)
include hdone

theorem not_stuckUse_of_done : ¬ M.StuckUse L write loads := by
  rintro ⟨v, u, hv, hu, hne, hun⟩
  obtain ⟨top, htop, hterm, -, -⟩ := hdone v hv u hu hne
  rcases hun with hnone | ⟨top', htop', hterm'⟩
  · rw [hnone] at htop
    cases htop
  · rw [htop'] at htop
    cases htop
    rw [hterm'] at hterm
    cases hterm

theorem behind_of_done {top : ι} (hused : M.UsesComputed L write loads top)
    (hbefore : M.isBeforeInBlock L write top = true) :
    ∃ last, s.last = some last ∧ M.isBeforeInBlock L last top = false := by
  obtain ⟨v, u, hv, hu, hne, htop⟩ := hused
  obtain ⟨top', htop', -, -, hlast⟩ := hdone v hv u hu hne
  rw [htop] at htop'
  cases htop'
  exact hlast hbefore

end Done

/-- **What `lastUseOfOverwrittenValue` finds.** -/
theorem lastUse_spec (hL : M.Arranged L) (write : ι) (loads : List ι) :
    match M.lastUseOfOverwrittenValue L write loads with
    | none => ¬ M.StuckUse L write loads ∧ M.Settled L write loads
    | some last => last = write ∧ M.StuckUse L write loads ∨
      last ≠ write ∧ ¬ M.StuckUse L write loads ∧ M.IsLastUse L write loads last := by
  have hinv₀ : M.SearchInv L write loads ⟨(M.loadedBefore L write loads).reverse, [], none⟩ := by
    constructor
    · intro v hv
      obtain ⟨ld, hld, hblock, hbefore, hres⟩ := mem_loadedBefore.1 (mem_reverse.1 hv)
      exact .loaded hld hblock hbefore hres
    · intro last hlast
      cases hlast
  have hf₀ : M.Followed L write loads ⟨(M.loadedBefore L write loads).reverse, [], none⟩ := by
    intro v hv
    rcases hv with hv | ⟨o, ho, -⟩
    · exact Or.inl (mem_reverse.2 hv)
    · cases ho
  have hspec := followUses_spec hL (M.workBound L write loads) hinv₀ hf₀
    (by rw [workLeft, workBound, length_reverse]; simp)
  rw [lastUseOfOverwrittenValue]
  cases hsearch : M.followUses L write (M.workBound L write loads)
      ⟨(M.loadedBefore L write loads).reverse, [], none⟩ with
  | none =>
    rw [hsearch] at hspec
    exact Or.inl ⟨rfl, hspec⟩
  | some s =>
    rw [hsearch] at hspec
    obtain ⟨hinv, hf, hwork⟩ := hspec
    have hdone := fun v hv => valueDone_of_computed hf hwork (v := v) hv
    have hstuck := not_stuckUse_of_done hdone
    simp only
    cases hlast : s.last with
    | none =>
      refine ⟨hstuck, fun top htop => ?_⟩
      by_contra hbefore
      obtain ⟨last, heq, -⟩ := behind_of_done hdone htop (by simpa using hbefore)
      rw [hlast] at heq
      cases heq
    | some last =>
      obtain ⟨hused, hbefore⟩ := hinv.last last hlast
      refine Or.inr ⟨?_, hstuck, hused, hbefore, ?_⟩
      · rintro rfl
        rw [isBeforeInBlock_irrefl] at hbefore
        cases hbefore
      · intro top htop
        by_cases hwt : M.isBeforeInBlock L write top = true
        · obtain ⟨last', heq, hfalse⟩ := behind_of_done hdone htop hwt
          rw [hlast] at heq
          cases heq
          exact hfalse
        · -- an operation ahead of the write is ahead of the last use
          by_contra hlt
          rw [Bool.not_eq_false] at hlt
          exact hwt (isBeforeInBlock_trans hused.block hbefore hlt)

end Ir

end SinkStores
