/-
# What sinking achieves

A write is settled when nothing behind it in its block uses a value computed from a load of
its memory ahead of it.  The pass settles each write that is not blocked.  It stays settled
until a write into other memory, which itself uses such a value, is moved from in front of
it to behind it; the runs of the pass without such a move are exactly those in which every
write that was not blocked stays settled.
-/
import DaceFortran.SinkStores.LastUse
import DaceFortran.SinkStores.PassPreserves

namespace SinkStores

variable {ι : Type} [DecidableEq ι]

/-- A write that the pass looks at, with the accesses to its memory. -/
structure Job (ι : Type) where
  alloca : ι
  acc : Accesses ι
  write : ι

namespace Ir

variable {M : Ir ι} {L : Layout ι}

/-! ## The run of the pass -/

/-- The writes of one alloca that the pass looks at. -/
def jobsOf (M : Ir ι) (a : ι) : List (Job ι) :=
  match M.op a with
  | .alloca true _ result =>
    match M.collectAccesses M.depth ⟨[], []⟩ result with
    | none => []
    | some acc => if acc.loads.isEmpty then [] else acc.writes.map (fun w => ⟨a, acc, w⟩)
  | _ => []

/-- The writes in the order the pass looks at them. -/
def jobs (M : Ir ι) : List (Job ι) := M.walk.flatMap M.jobsOf

/-- One write. -/
def sinkJob (M : Ir ι) (L : Layout ι) (j : Job ι) : Layout ι := M.sinkWrite j.acc L j.write

/-- The order of the module after the first `n` writes. -/
def layoutAfter (M : Ir ι) (L : Layout ι) (n : ℕ) : Layout ι := (M.jobs.take n).foldl M.sinkJob L

variable {j : Job ι}

theorem layoutAfter_succ {n : ℕ} (hj : M.jobs[n]? = some j) :
    M.layoutAfter L (n + 1) = M.sinkJob (M.layoutAfter L n) j := by
  rw [layoutAfter, List.take_add_one, hj, List.foldl_append]
  rfl

theorem sinkAlloca_eq (a : ι) : M.sinkAlloca L a = (M.jobsOf a).foldl M.sinkJob L := by
  rw [sinkAlloca]
  split
  · rename_i sizes result hop
    simp only [jobsOf, hop]
    cases hacc : M.collectAccesses M.depth ⟨[], []⟩ result with
    | none => rfl
    | some acc =>
      by_cases hloads : acc.loads.isEmpty = true
      · simp only [if_pos hloads]
        rfl
      · simp only [if_neg hloads, List.foldl_map]
        rfl
  · rename_i hnot
    have hnone : M.jobsOf a = [] := by
      rw [jobsOf]
      split
      · rename_i sizes result hop
        exact (hnot sizes result hop).elim
      · rfl
    rw [hnone]
    rfl

/-- **The pass looks at the writes one after the other.** -/
theorem runOnOperation_eq : M.runOnOperation L = M.layoutAfter L M.jobs.length := by
  rw [layoutAfter, List.take_length, runOnOperation, jobs, List.foldl_flatMap]
  congr 1
  funext L a
  exact sinkAlloca_eq a

variable {a write last : ι} {L' : Layout ι} {loads : List ι}

omit [DecidableEq ι] in
/-- **The writes the pass looks at** are those of the scalar allocas that do not escape and are
loaded. -/
theorem mem_jobsOf : j ∈ M.jobsOf a ↔ j.alloca = a ∧ ∃ sizes result,
    M.op j.alloca = .alloca true sizes result ∧
      M.collectAccesses M.depth ⟨[], []⟩ result = some j.acc ∧
      j.acc.loads ≠ [] ∧ j.write ∈ j.acc.writes := by
  rw [jobsOf]
  split
  · rename_i sizes result hop
    constructor
    · intro hj
      split at hj
      · cases hj
      · rename_i acc hacc
        split at hj
        · cases hj
        · rename_i hloads
          obtain ⟨w, hw, rfl⟩ := List.mem_map.1 hj
          exact ⟨rfl, sizes, result, hop, hacc, by simpa using hloads, hw⟩
    · rintro ⟨rfl, sizes', result', hop', hacc, hloads, hw⟩
      rw [hop] at hop'
      cases hop'
      rw [hacc]
      simp only [List.isEmpty_iff, if_neg hloads]
      exact List.mem_map.2 ⟨j.write, hw, rfl⟩
  · rename_i hnot
    constructor
    · intro hj
      cases hj
    · rintro ⟨rfl, sizes, result, hop, -⟩
      exact (hnot sizes result hop).elim

omit [DecidableEq ι] in
theorem mem_jobs : j ∈ M.jobs ↔ ∃ sizes result, M.op j.alloca = .alloca true sizes result ∧
    M.collectAccesses M.depth ⟨[], []⟩ result = some j.acc ∧ j.acc.loads ≠ [] ∧
      j.write ∈ j.acc.writes := by
  rw [jobs, List.mem_flatMap]
  constructor
  · rintro ⟨a, -, hj⟩
    obtain ⟨rfl, h⟩ := mem_jobsOf.1 hj
    exact h
  · rintro ⟨sizes, result, hop, h⟩
    exact ⟨j.alloca, M.mem_walk (by rw [hop]; rfl), mem_jobsOf.2 ⟨rfl, sizes, result, hop, h⟩⟩

omit [DecidableEq ι] in
theorem nonEscaping_of_mem_jobs (hj : j ∈ M.jobs) :
    M.NonEscaping j.alloca j.acc ∧ j.write ∈ j.acc.writes := by
  obtain ⟨sizes, result, hop, hacc, -, hw⟩ := mem_jobs.1 hj
  exact ⟨nonEscaping_of_collect hop hacc, hw⟩

omit [DecidableEq ι] in
/-- What a write of the pass is. -/
theorem write_op (hj : j ∈ M.jobs) : (∀ memref result, M.op j.write ≠ .load memref result) ∧
    (M.op j.write).blocks = [] := by
  obtain ⟨hne, hw⟩ := nonEscaping_of_mem_jobs hj
  obtain ⟨v, -, ⟨value, hop⟩ | ⟨rhs, hop⟩⟩ :=
    hne.writes j.write hw <;> rw [hop] <;> simp [Op.blocks]

variable {v : ValueId} {j j' : Job ι} {pre mid post : List ι}

omit [DecidableEq ι] in
/-- An address is derived from one alloca only. -/
theorem derived_unique {a' : ι} {acc acc' : Accesses ι} (h : M.NonEscaping a acc)
    (h' : M.NonEscaping a' acc')
    (hv : M.Derived a v) (hv' : M.Derived a' v) : a = a' := by
  obtain ⟨r, hr, hrv⟩ := hv
  obtain ⟨sizes, result, ha⟩ := h.op
  induction hrv with
  | refl =>
    rw [ha] at hr
    rw [List.mem_singleton.1 hr] at hv'
    exact (derived_alloca ha).1 hv'
  | tail _ hstep ih =>
    -- back over the operation that gave the address on
    obtain ⟨u, ⟨others, results, hop, hres⟩ | hop⟩ := hstep
    · exact ih ((derived_declare h' hop hres).1 hv')
    · exact ih ((derived_convert h' hop).1 hv')

omit [DecidableEq ι] in
/-- A write belongs to one alloca only. -/
theorem acc_unique (hj : j ∈ M.jobs) (hj' : j' ∈ M.jobs) (hw : j.write = j'.write) :
    j.acc = j'.acc := by
  obtain ⟨hne, hmem⟩ := nonEscaping_of_mem_jobs hj
  obtain ⟨hne', hmem'⟩ := nonEscaping_of_mem_jobs hj'
  obtain ⟨v, hv, hop⟩ := hne.writes j.write hmem
  obtain ⟨v', hv', hop'⟩ := hne'.writes j'.write hmem'
  have hvv : v = v' := by
    rw [← hw] at hop'
    rcases hop with ⟨_, hop⟩ | ⟨_, hop⟩ <;> rcases hop' with ⟨_, hop'⟩ | ⟨_, hop'⟩
      <;> rw [hop] at hop' <;> cases hop'
    · rfl
    · rfl
  subst hvv
  have ha := derived_unique hne hne' hv hv'
  obtain ⟨sizes, result, hop₁, hacc, -⟩ := mem_jobs.1 hj
  obtain ⟨sizes', result', hop₂, hacc', -⟩ := mem_jobs.1 hj'
  rw [ha, hop₂] at hop₁
  cases hop₁
  rw [hacc] at hacc'
  exact Option.some.inj hacc'

/-! ## Settled and blocked writes -/

/-- A write that has to stay: a value computed from a load ahead of it is used where it cannot
follow, or another access lies between it and a use behind it. -/
def Blocked (M : Ir ι) (L : Layout ι) (j : Job ι) : Prop :=
  M.StuckUse L j.write j.acc.loads ∨ ∃ top, M.UsesComputed L j.write j.acc.loads top ∧
    M.isBeforeInBlock L j.write top = true ∧ ∃ o, (o ∈ j.acc.loads ∨ o ∈ j.acc.writes) ∧
      M.inRange L j.write top o = true

/-- The values computed depend only on which loads stand ahead of the write. -/
theorem computed_congr
    (h : ∀ ld ∈ loads, M.blockOf ld = M.blockOf write →
      M.isBeforeInBlock L ld write = M.isBeforeInBlock L' ld write)
    (hv : M.Computed L write loads v) : M.Computed L' write loads v := by
  induction hv with
  | loaded hld hblock hbefore hres =>
      exact .loaded hld hblock (by rw [← h _ hld hblock]; exact hbefore) hres
  | through _ hu hne htop hr ih => exact .through ih hu hne htop hr

theorem usesComputed_congr
    (h : ∀ ld ∈ loads, M.blockOf ld = M.blockOf write →
      M.isBeforeInBlock L ld write = M.isBeforeInBlock L' ld write)
    {top : ι} (htop : M.UsesComputed L write loads top) : M.UsesComputed L' write loads top := by
  obtain ⟨v, u, hv, hu⟩ := htop
  exact ⟨v, u, computed_congr h hv, hu⟩

/-- **What the pass does with a write**: it moves it below the last use, or the write is settled, or
blocked. -/
theorem sinkJob_cases (hL : M.Arranged L) (j : Job ι) :
    (∃ last, M.IsLastUse L j.write j.acc.loads last ∧ ¬ M.Blocked L j ∧
      M.RangeFree j.acc L j.write last ∧
      M.sinkJob L j = M.moveAfter L j.write last) ∨
    (M.Settled L j.write j.acc.loads ∧ M.sinkJob L j = L) ∨
      (M.Blocked L j ∧ M.sinkJob L j = L) := by
  have hspec := lastUse_spec hL j.write j.acc.loads
  rw [sinkJob, sinkWrite]
  cases hlast : M.lastUseOfOverwrittenValue L j.write j.acc.loads with
  | none =>
    rw [hlast] at hspec
    exact Or.inr (Or.inl ⟨hspec.2, rfl⟩)
  | some last =>
    rw [hlast] at hspec
    rcases hspec with ⟨rfl, hstuck⟩ | ⟨hne, hstuck, hlast⟩
    · exact Or.inr (Or.inr ⟨Or.inl hstuck, by simp⟩)
    · simp only [if_neg hne]
      split
      · rename_i hany
        refine Or.inr (Or.inr ⟨Or.inr ⟨last, hlast.used, hlast.behind, ?_⟩, rfl⟩)
        rw [Bool.or_eq_true, List.any_eq_true, List.any_eq_true] at hany
        rcases hany with ⟨o, ho, hin⟩ | ⟨o, ho, hin⟩
        · exact ⟨o, Or.inl ho, hin⟩
        · exact ⟨o, Or.inr ho, hin⟩
      · rename_i hany
        have hfree : M.RangeFree j.acc L j.write last := by
          rw [Bool.not_eq_true, Bool.or_eq_false_iff, List.any_eq_false, List.any_eq_false] at hany
          rintro o (ho | ho)
          · simpa using hany.1 o ho
          · simpa using hany.2 o ho
        refine Or.inl ⟨last, hlast, ?_, hfree, rfl⟩
        rintro (hstuck' | ⟨top, htop, hbehind, o, ho, hin⟩)
        · exact hstuck hstuck'
        · -- an access in front of `top` is in front of the last use
          have hin' := hfree o ho
          rw [inRange] at hin hin'
          cases hanc : M.findAncestorOpInBlock (M.blockOf j.write) o with
          | none =>
            rw [hanc] at hin
            cases hin
          | some t =>
            rw [hanc] at hin hin'
            simp only [Bool.and_eq_true, Bool.not_eq_true'] at hin
            simp only [hin.1, Bool.true_and, Bool.not_eq_false'] at hin'
            have hge := hlast.greatest top htop
            have htt : M.blockOf t = M.blockOf j.write := (ancestor_block hanc).1
            by_cases heq : t = top
            · rw [heq] at hin'
              rw [hin'] at hge
              cases hge
            · have hlt := isBeforeInBlock_total hL (htt.trans htop.block.symm) (Ne.symm heq) hin.2
              rw [isBeforeInBlock_trans (htt.trans hlast.used.block.symm) hin' hlt] at hge
              cases hge

/-- **A write that is moved is settled.** -/
theorem settled_moved (hL : M.Arranged L) (hj : j ∈ M.jobs)
    (hlast : M.IsLastUse L j.write j.acc.loads last) (hfree : M.RangeFree j.acc L j.write last) :
    M.Settled (M.moveAfter L j.write last) j.write j.acc.loads := by
  obtain ⟨pre, mid, post, hmove⟩ := movesDown hL hlast.used.block hlast.behind
  have hL' := moveAfter_arranged hL hmove
  -- the same loads stand ahead of it
  have hsame : ∀ ld ∈ j.acc.loads, M.blockOf ld = M.blockOf j.write →
      M.isBeforeInBlock (M.moveAfter L j.write last) ld j.write =
        M.isBeforeInBlock L ld j.write := by
    intro ld hld hblock
    have hne : ld ≠ j.write := by
      intro heq
      obtain ⟨memref, result, hop⟩ := (nonEscaping_of_mem_jobs hj).1.loads ld hld
      rw [heq] at hop
      exact (write_op hj).1 memref result hop
    cases hbefore : M.isBeforeInBlock L ld j.write with
    | true => exact isBeforeInBlock_move hL hmove hne hblock.symm hbefore
    | false =>
      have hbehind := isBeforeInBlock_total hL hblock.symm hne hbefore
      have hin := hfree ld (Or.inl hld)
      have hself : M.findAncestorOpInBlock (M.blockOf j.write) ld = some ld := by
        rw [← hblock]
        exact findAncestorOpInBlock_self ld
      simp only [inRange, hself, hbehind, Bool.true_and, Bool.not_eq_false'] at hin
      apply isBeforeInBlock_asymm hblock
      rw [isBeforeInBlock_moved hL hmove hblock]
      exact hin
  intro top htop
  have htop := usesComputed_congr hsame htop
  rw [isBeforeInBlock_moved hL hmove htop.block]
  exact hlast.greatest top htop

/-! ## Writes of other memory -/

/-- The step moves the write of `j'` from in front of the write of `j` to behind it. -/
def Crosses (M : Ir ι) (L : Layout ι) (j' j : Job ι) : Prop :=
  ¬ M.Blocked L j' ∧ M.blockOf j.write = M.blockOf j'.write ∧
    M.isBeforeInBlock L j'.write j.write = true ∧
    ∃ top, M.UsesComputed L j'.write j'.acc.loads top ∧ M.isBeforeInBlock L top j.write = false

omit [DecidableEq ι] in
/-- What is nested in a write is the write. -/
theorem eq_of_ancestor_write (hj : j ∈ M.jobs) {b : BlockId} {u : ι}
    (h : M.findAncestorOpInBlock b u = some j.write) : u = j.write := by
  refine ancestor_induction (motive := fun u => u = j.write) (fun _ => rfl) ?_ h
  -- a write has no blocks
  rintro o p hp - hpw
  have hblocks := M.parent_blocks.2 hp
  rw [hpw, (write_op hj).2] at hblocks
  cases hblocks

/-- Two writes that stay where they are relative to each other, or do not. -/
theorem isBeforeInBlock_other (hL : M.Arranged L) {o x y : ι}
    (hmove : M.MovesDown L o last pre mid post) (hx : x ≠ o) (hy : y ≠ o)
    (hxy : M.blockOf y = M.blockOf x) :
    M.isBeforeInBlock (M.moveAfter L o last) x y = M.isBeforeInBlock L x y := by
  cases h : M.isBeforeInBlock L x y with
  | true => exact isBeforeInBlock_move hL hmove hx hxy h
  | false =>
    by_cases hne : x = y
    · rw [hne]
      exact isBeforeInBlock_irrefl y
    · exact isBeforeInBlock_asymm hxy.symm
        (isBeforeInBlock_move hL hmove hy hxy.symm (isBeforeInBlock_total hL hxy hne h))

/-- A move of another write leaves the loads of a memory where they are relative to its own
write. -/
theorem isBeforeInBlock_load (hL : M.Arranged L) (hj : j ∈ M.jobs) (hj' : j' ∈ M.jobs)
    (hne : j.write ≠ j'.write) (hmove : M.MovesDown L j'.write last pre mid post) :
    ∀ ld ∈ j.acc.loads, M.blockOf ld = M.blockOf j.write →
      M.isBeforeInBlock (M.moveAfter L j'.write last) ld j.write =
        M.isBeforeInBlock L ld j.write := by
  intro ld hld hblock
  have hload : ld ≠ j'.write := by
    intro heq
    obtain ⟨memref, result, hop⟩ := (nonEscaping_of_mem_jobs hj).1.loads ld hld
    rw [heq] at hop
    exact (write_op hj').1 memref result hop
  exact isBeforeInBlock_other hL hmove hload hne hblock.symm

/-- **A move of another write**: the write of `j` stays settled unless the moved one crosses it with
a value computed from a load ahead of it. -/
theorem settled_step (hL : M.Arranged L) (hj : j ∈ M.jobs) (hj' : j' ∈ M.jobs)
    (hs : M.Settled L j.write j.acc.loads)
    (hclean : M.Crosses L j' j → ∀ v, M.Computed L j.write j.acc.loads v → j'.write ∉ M.uses v) :
    M.Settled (M.sinkJob L j') j.write j.acc.loads := by
  rcases sinkJob_cases hL j' with ⟨last, hlast, hblocked, hfree, heq⟩ | ⟨-, heq⟩ | ⟨-, heq⟩
  · rw [heq]
    by_cases hw : j.write = j'.write
    · have hacc := acc_unique hj hj' hw
      rw [hw, hacc]
      exact settled_moved hL hj' hlast hfree
    · obtain ⟨pre, mid, post, hmove⟩ := movesDown hL hlast.used.block hlast.behind
      intro top htop
      have htop := usesComputed_congr (isBeforeInBlock_load hL hj hj' hw hmove) htop
      have hbefore := hs top htop
      by_cases htw : top = j'.write
      · -- the moved write itself uses such a value: it must have crossed
        subst htw
        have hblock := htop.block
        have hahead := isBeforeInBlock_total hL hblock hw hbefore
        by_contra hafter
        rw [Bool.not_eq_false] at hafter
        have hlw : M.isBeforeInBlock L last j.write = false := by
          rw [← isBeforeInBlock_moved hL hmove hblock.symm]
          exact isBeforeInBlock_asymm hblock hafter
        obtain ⟨v, u, hv, hu, -, hanc⟩ := htop
        rw [eq_of_ancestor_write hj' hanc] at hu
        exact hclean ⟨hblocked, hblock.symm, hahead, last, hlast.used, hlw⟩ v hv hu
      · rw [isBeforeInBlock_other hL hmove hw htw htop.block]
        exact hbefore
  · rw [heq]
    exact hs
  · rw [heq]
    exact hs

/-- **A crossing move undoes the goal.** -/
theorem not_settled_of_crosses (hL : M.Arranged L) (hj : j ∈ M.jobs) (hj' : j' ∈ M.jobs)
    (hcross : M.Crosses L j' j) (hv : M.Computed L j.write j.acc.loads v)
    (hu : j'.write ∈ M.uses v) :
    ¬ M.Settled (M.sinkJob L j') j.write j.acc.loads := by
  obtain ⟨hblocked, hblock, hahead, top, htop, hge⟩ := hcross
  have hne : j.write ≠ j'.write := by
    intro heq
    rw [heq, isBeforeInBlock_irrefl] at hahead
    cases hahead
  -- the use `top` of the other memory is behind the write that is moved
  have hwt : M.isBeforeInBlock L j'.write top = true := by
    by_cases heq : top = j.write
    · rw [heq]
      exact hahead
    · exact isBeforeInBlock_trans hblock hahead
        (isBeforeInBlock_total hL (hblock.trans htop.block.symm) heq hge)
  rcases sinkJob_cases hL j' with ⟨last, hlast, -, hfree, heq⟩ | ⟨hs, -⟩ | ⟨hb, -⟩
  · rw [heq]
    obtain ⟨pre, mid, post, hmove⟩ := movesDown hL hlast.used.block hlast.behind
    have hlw : M.isBeforeInBlock L last j.write = false := by
      by_contra hlt
      rw [Bool.not_eq_false] at hlt
      have hle := hlast.greatest top htop
      by_cases heq : top = j.write
      · rw [heq, hlt] at hle
        cases hle
      · rw [isBeforeInBlock_trans (hblock.trans hlast.used.block.symm) hlt
          (isBeforeInBlock_total hL (hblock.trans htop.block.symm) heq hge)] at hle
        cases hle
    have hafter : M.isBeforeInBlock (M.moveAfter L j'.write last) j.write j'.write = true := by
      apply isBeforeInBlock_total (moveAfter_arranged hL hmove) hblock (Ne.symm hne)
      rw [isBeforeInBlock_moved hL hmove hblock]
      exact hlw
    have hsame := isBeforeInBlock_load hL hj hj' hne hmove
    intro hs
    have hself : M.findAncestorOpInBlock (M.blockOf j.write) j'.write = some j'.write := by
      rw [hblock]
      exact findAncestorOpInBlock_self j'.write
    rw [hs j'.write ⟨v, j'.write, computed_congr (fun ld hld hb => (hsame ld hld hb).symm) hv, hu,
      Ne.symm hne, hself⟩] at hafter
    cases hafter
  · rw [hs top htop] at hwt
    cases hwt
  · exact (hblocked hb).elim

/-! ## The goal -/

/-- After `n` writes, every write looked at that was not blocked then is settled. -/
def AllSettled (M : Ir ι) (L : Layout ι) (n : ℕ) : Prop :=
  ∀ k < n, ∀ j, M.jobs[k]? = some j → ¬ M.Blocked (M.layoutAfter L k) j →
    M.Settled (M.layoutAfter L n) j.write j.acc.loads

/-- The move of the `n`-th write takes no use of a value, computed from a load ahead of a write
looked at before that was not blocked then, from in front of that write to behind it. -/
def CleanStep (M : Ir ι) (L : Layout ι) (n : ℕ) : Prop :=
  ∀ j', M.jobs[n]? = some j' → ∀ k < n, ∀ j, M.jobs[k]? = some j →
    ¬ M.Blocked (M.layoutAfter L k) j →
    M.Crosses (M.layoutAfter L n) j' j →
      ∀ v, M.Computed (M.layoutAfter L n) j.write j.acc.loads v → j'.write ∉ M.uses v

end Ir

variable {P : Program ι}

theorem Program.arranged_layoutAfter (P : Program ι) (n : ℕ) :
    P.Arranged (P.layoutAfter P.layout n) := by
  have hkept : ∀ (l : List (Job ι)) (L : Layout ι), l ⊆ P.jobs → P.Kept P.layout L →
      P.Kept P.layout (l.foldl P.sinkJob L) := by
    intro l
    induction l with
    | nil => exact fun L _ hL => hL
    | cons j l ih =>
      intro L hl hL
      rw [List.cons_subset] at hl
      obtain ⟨hne, hw⟩ := Ir.nonEscaping_of_mem_jobs hl.1
      exact ih _ hl.2 (Ir.kept_sinkWrite hne hw hL)
  exact (hkept _ _ (List.take_subset n P.jobs)
    ⟨P.arranged, P.operandsDefined, fun _ _ _ _ _ _ => Iff.rfl⟩).arranged

/-- **The pass achieves its goal exactly in the runs of clean steps.** -/
theorem Program.allSettled_iff (P : Program ι) :
    (∀ n ≤ P.jobs.length, P.AllSettled P.layout n) ↔
      ∀ n < P.jobs.length, P.CleanStep P.layout n := by
  constructor
  · intro h n hn j' hj' k hk j hj hblocked hcross v hv hu
    have hsettled := h (n + 1) hn k (by omega) j hj hblocked
    rw [Ir.layoutAfter_succ hj'] at hsettled
    exact Ir.not_settled_of_crosses (P.arranged_layoutAfter n) (List.mem_of_getElem? hj)
      (List.mem_of_getElem? hj')
      hcross hv hu hsettled
  · intro h n
    induction n with
    | zero =>
      intro _ k hk
      omega
    | succ n ih =>
      intro hn k hk j hj hblocked
      have hlen : n < P.jobs.length := by omega
      have hjn : P.jobs[n]? = some P.jobs[n] := List.getElem?_eq_getElem hlen
      rw [Ir.layoutAfter_succ hjn]
      rcases Nat.lt_succ_iff_lt_or_eq.1 hk with hlt | rfl
      · exact Ir.settled_step (P.arranged_layoutAfter n) (List.mem_of_getElem? hj)
          (List.mem_of_getElem? hjn)
          (ih (by omega) k hlt j hj hblocked) (h n (by omega) _ hjn k hlt j hj hblocked)
      · rw [hj] at hjn
        rw [← Option.some.inj hjn]
        rcases Ir.sinkJob_cases (P.arranged_layoutAfter k) j with ⟨last, hlast, -, hfree,
          heq⟩ | ⟨hs, heq⟩ | ⟨hb, -⟩
        · rw [heq]
          exact Ir.settled_moved (P.arranged_layoutAfter k) (List.mem_of_getElem? hj) hlast hfree
        · rw [heq]
          exact hs
        · exact (hblocked hb).elim

/-! ## A move that undoes the goal

`p = a; q = b; b = p; a = c; f(q)`: the write of `a` is settled, as the write of `b` ahead of it is
the only use of `p`. Then the write of `b` is moved below `f(q)`, and with it the use of `p`. -/

theorem neZeroTen : @NeZero ℕ Zero.ofOfNat0 10 := ⟨by decide⟩

attribute [local instance] neZeroTen

/-- The operations of the function, and the function itself. -/
def swapOp : Fin 10 → Op
  | 0 => .other [] [] [1]
  | 1 => .alloca true [] 1
  | 2 => .alloca true [] 2
  | 3 => .other [] [5] []
  | 4 => .load 1 3
  | 5 => .load 2 4
  | 6 => .store 3 2
  | 7 => .store 5 1
  | 8 => .other [4] [] []
  | 9 => .terminator []

/-- The order of its operations. -/
def swapLayout : Layout (Fin 10)
  | 0 => [0]
  | 1 => [1, 2, 3, 4, 5, 6, 7, 8, 9]
  | _ => []

/-- The tables of the function. -/
def swapIr : Ir (Fin 10) where
  op := swapOp
  blockOf o := if o = 0 then 0 else 1
  parentOf b := if b = 1 then some 0 else none
  args _ := []
  level b := if b = 1 then 1 else 0
  uses v := (List.finRange 10).filter (fun o => v ∈ (swapOp o).operands)
  walk := List.finRange 10
  depth := 1
  dominates _ _ := False
  level_top := by
    intro b h
    split at h
    · cases h
    · rename_i hb
      rw [if_neg hb]
  level_parent := by
    intro b o h
    split at h
    · rename_i hb
      cases h
      rw [if_pos hb, if_pos rfl, if_neg (by decide)]
    · cases h
  parent_blocks := by
    intro b o
    have hblocks : (swapOp o).blocks = if o = 0 then [1] else [] := by
      revert o
      decide
    rw [hblocks]
    by_cases ho : o = 0 <;> by_cases hb : b = 1 <;> simp [ho, hb, eq_comm]
  parent_dominates := fun h => h.elim
  not_dominates_self := fun h => h
  mem_uses := by
    intro v o
    simp
  mem_walk := fun _ => List.mem_finRange _
  result_unique := by
    have h : ∀ o o', ∀ v ∈ (swapOp o).results, v ∈ (swapOp o').results → o = o' := by decide
    exact fun {v o o'} hv hv' => h o o' v hv hv'
  args_unique := by
    intro v b o h
    cases h

/-- The function. -/
def swapProgram : Program (Fin 10) where
  toIr := swapIr
  layout := swapLayout
  arranged := by
    constructor
    · intro b o
      have hblock : swapIr.blockOf o ≤ 1 := by
        revert o
        decide
      match b with
      | 0 =>
        revert o
        decide
      | 1 =>
        revert o
        decide
      | b + 2 =>
        constructor
        · intro h
          cases h
        · intro h
          rw [h] at hblock
          exact absurd hblock (by simp)
    · intro b
      match b with
      | 0 => decide
      | 1 => decide
      | b + 2 => exact List.nodup_nil
  operandsDefined := by
    have h : ∀ d o, ∀ v ∈ (swapOp d).results, v ∈ (swapOp o).operands →
        swapIr.findAncestorOpInBlock (swapIr.blockOf d) o = some o ∧
          swapIr.isBeforeInBlock swapLayout d o = true := by decide
    constructor
    · intro d o v hv hv'
      obtain ⟨htop, hbefore⟩ := h d o v hv hv'
      exact ⟨swapIr.blockOf d, o, htop, Or.inl ⟨rfl, hbefore⟩⟩
    · intro b o v hv
      cases hv

/-- **The write of `a` is not blocked, and a use of the value loaded before it ends up behind
it.** -/
theorem not_allSettled_swap :
    ¬ swapProgram.AllSettled swapProgram.layout swapProgram.jobs.length := by
  intro h
  have hspec := Ir.lastUse_spec swapProgram.arranged 7 [4]
  have hnone : swapProgram.lastUseOfOverwrittenValue swapProgram.layout 7 [4] = none := by decide
  rw [hnone] at hspec
  have hblocked : ¬ swapProgram.Blocked (swapProgram.layoutAfter swapProgram.layout 0)
      ⟨1, ⟨[4], [7]⟩, 7⟩ := by
    rintro (hstuck | ⟨top, htop, hbehind, -⟩)
    · exact hspec.1 hstuck
    · have hfalse := hspec.2 top htop
      change swapProgram.isBeforeInBlock swapProgram.layout 7 top = true at hbehind
      rw [hfalse] at hbehind
      cases hbehind
  have hsettled := h 0 (by decide) ⟨1, ⟨[4], [7]⟩, 7⟩ rfl hblocked
  have hloaded : swapProgram.Computed
      (swapProgram.layoutAfter swapProgram.layout swapProgram.jobs.length) 7 [4] 3 :=
    .loaded (List.mem_singleton_self 4) (by decide) (by decide) (by decide)
  have hfalse := hsettled 6 ⟨3, 6, hloaded, by decide, by decide, by decide⟩
  revert hfalse
  decide

end SinkStores
