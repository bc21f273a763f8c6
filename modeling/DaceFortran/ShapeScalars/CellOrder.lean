/-
# Reads and writes of a cell, and their order

Which cells the operations of a block read and write, and the static order the versions
of a scalar are in: no write of the cell can follow a read of it, whatever branches are
taken and however often the loops run.  Rewriting another declare keeps the order.
-/
import DaceFortran.ShapeScalars.PassReads
import Mathlib.Data.List.Forall2
import Mathlib.Logic.Relation

open List

namespace ShapeScalars

variable {S : Type}

/-! ## Cells an operation reads and writes -/

/-- The operation reads the cell. -/
def Op.Reads (c : Cell) : Op S → Prop
  | .load _ c' => c' = c
  | .freeze dst d => c = .own d ∨ c = .frozen d dst
  | _ => False

/-- The operation writes the cell. -/
def Op.Writes (c : Cell) : Op S → Prop
  | .write c' _ => c' = c
  | .freeze dst d => c = .frozen d dst
  | _ => False

/-- The operation stores to the scalar, whichever its cell. -/
def Op.StoresTo (d : ℕ) : Op S → Prop
  | .write c _ => c.scalar = d
  | _ => False

/-- Some operation of the block is one of these. -/
def Block.Has (A : Op S → Prop) (b : Block S) : Prop := ∃ o ∈ b.ops, A o

/-- No operation of the second kind can follow one of the first. -/
def Block.Guarded (A B : Op S → Prop) : Block S → Prop
  | .done => True
  | .op o r => (A o → ¬ r.Has B) ∧ r.Guarded A B
  | .branch _ t e r =>
    (t.Has A ∨ e.Has A → ¬ r.Has B) ∧ t.Guarded A B ∧ e.Guarded A B ∧ r.Guarded A B
  | .loop _ body r =>
    (body.Has A → ¬ body.Has B ∧ ¬ r.Has B) ∧ body.Guarded A B ∧ r.Guarded A B

variable {A B : Op S → Prop}
variable {c : Cell} {cond : Data S → Bool} {b : Block S} {R : Op S → Op S → Prop} {d : ℕ}

variable {o : Op S} {d k total : ℕ}

variable {r t e body : Block S}

theorem has_op : (Block.op o r).Has A ↔ A o ∨ r.Has A := by
  simp [Block.Has, Block.ops]

theorem has_branch : (Block.branch cond t e r).Has A ↔ (t.Has A ∨ e.Has A) ∨ r.Has A := by
  simp only [Block.Has, Block.ops, mem_append, or_and_right, exists_or]

theorem has_loop : (Block.loop cond body r).Has A ↔ body.Has A ∨ r.Has A := by
  simp only [Block.Has, Block.ops, mem_append, or_and_right, exists_or]

theorem guarded_of_not_has (h : ¬ b.Has A) : b.Guarded A B := by
  induction b with
  | done => trivial
  | op o r ih =>
    rw [has_op, not_or] at h
    exact ⟨fun hr => absurd hr h.1, ih h.2⟩
  | branch cond t e r iht ihe ihr =>
    rw [has_branch, not_or, not_or] at h
    exact ⟨fun hr => absurd hr (not_or.mpr h.1), iht h.1.1, ihe h.1.2, ihr h.2⟩
  | loop cond body r ihb ihr =>
    rw [has_loop, not_or] at h
    exact ⟨fun hr => absurd hr h.1, ihb h.1, ihr h.2⟩

/-! ## Blocks of the same shape -/

/-- The same block with other operations. -/
inductive Block.Related (R : Op S → Op S → Prop) : Block S → Block S → Prop
  | done : Related R .done .done
  | op {o o' : Op S} {r r' : Block S} : R o o' → Related R r r' → Related R (.op o r) (.op o' r')
  | branch {cond : Data S → Bool} {t t' e e' r r' : Block S} : Related R t t' → Related R e e' →
      Related R r r' → Related R (.branch cond t e r) (.branch cond t' e' r')
  | loop {cond : Data S → Bool} {body body' r r' : Block S} : Related R body body' →
      Related R r r' → Related R (.loop cond body r) (.loop cond body' r')

theorem Block.Related.refl (hR : ∀ o, R o o) (b : Block S) :
    Block.Related R b b := by
  induction b with
  | done => exact .done
  | op o r ih => exact .op (hR o) ih
  | branch cond t e r iht ihe ihr => exact .branch iht ihe ihr
  | loop cond body r ihb ihr => exact .loop ihb ihr

variable {b b' : Block S}

theorem Block.Related.ops
    (h : Block.Related R b b') : List.Forall₂ R b.ops b'.ops := by
  induction h with
  | done => exact .nil
  | op ho _ ih => exact .cons ho ih
  | branch _ _ _ iht ihe ihr => exact rel_append (rel_append iht ihe) ihr
  | loop _ _ ihb ihr => exact rel_append ihb ihr

theorem exists_of_forall₂ {l l' : List (Op S)}
    (h : List.Forall₂ R l l') {o' : Op S} (ho : o' ∈ l') : ∃ o ∈ l, R o o' := by
  induction h with
  | nil => cases ho
  | cons hR _ ih =>
    rcases mem_cons.mp ho with rfl | ho
    · exact ⟨_, mem_cons_self, hR⟩
    · obtain ⟨o, hm, hoo⟩ := ih ho
      exact ⟨o, mem_cons_of_mem _ hm, hoo⟩

theorem Block.Related.exists_iff
    (h : Block.Related R b b') {P : Op S → Prop} (hP : ∀ o o', R o o' → (P o' ↔ P o)) :
    (∃ o ∈ b'.ops, P o) ↔ ∃ o ∈ b.ops, P o := by
  have hops := h.ops
  generalize b.ops = l at hops
  generalize b'.ops = l' at hops
  induction hops with
  | nil => simp
  | cons ho _ ih => simp [hP _ _ ho, ih]

/-- The operations are of the same kinds. -/
def SameKinds (A B : Op S → Prop) (o o' : Op S) : Prop := (A o' ↔ A o) ∧ (B o' ↔ B o)

theorem Block.Related.guarded
    (h : Block.Related (SameKinds A B) b b') (hg : b.Guarded A B) : b'.Guarded A B := by
  have hfirst : ∀ {b b' : Block S}, Block.Related (SameKinds A B) b b' → (b'.Has A ↔ b.Has A) :=
    fun h => h.exists_iff fun _ _ ho => ho.1
  have hsecond : ∀ {b b' : Block S}, Block.Related (SameKinds A B) b b' → (b'.Has B ↔ b.Has B) :=
    fun h => h.exists_iff fun _ _ ho => ho.2
  induction h with
  | done => trivial
  | op ho hr ih =>
    refine ⟨?_, ih hg.2⟩
    rw [ho.1, hsecond hr]
    exact hg.1
  | branch ht he hr iht ihe ihr =>
    refine ⟨?_, iht hg.2.1, ihe hg.2.2.1, ihr hg.2.2.2⟩
    rw [hfirst ht, hfirst he, hsecond hr]
    exact hg.1
  | loop hb hr ihb ihr =>
    refine ⟨?_, ihb hg.2.1, ihr hg.2.2⟩
    rw [hfirst hb, hsecond hb, hsecond hr]
    exact hg.1

/-! ## One rewriting -/

/-- `R` holds between an operation and every one the rewriting of `d` may put in its place. -/
structure Covers (d : ℕ) (R : Op S → Op S → Prop) : Prop where
  same : ∀ o, R o o
  version : ∀ o n, R o (o.atVersion d n)
  freeze : ∀ o ops, R o (o.freezeExtent ops d)

theorem versionBlock_related (hsame : ∀ o, R o o) (hversion : ∀ o n, R o (o.atVersion d n))
    (b : Block S)
    (n : ℕ) : Block.Related R b (versionBlock d n b) := by
  induction b generalizing n with
  | done => exact .done
  | op o r ih => exact .op (hversion o n) (ih _)
  | branch c t e r _ _ ih => exact .branch (.refl hsame t) (.refl hsame e) (ih n)
  | loop c body r _ ih => exact .loop (.refl hsame body) (ih n)

theorem versionNested_related (hsame : ∀ o, R o o) (hversion : ∀ o n, R o (o.atVersion d n))
    (total : ℕ)
    (b : Block S) : Block.Related R b (versionNested d total b) := by
  induction b with
  | done => exact .done
  | op o r ih => exact .op (hsame o) ih
  | branch c t e r iht ihe ihr =>
    refine .branch ?_ ?_ ihr
    · split
      · exact versionBlock_related hsame hversion t 0
      · exact iht
    · split
      · exact versionBlock_related hsame hversion e 0
      · exact ihe
  | loop c body r _ ih => exact .loop (.refl hsame body) ih

theorem version_related (hsame : ∀ o, R o o) (hversion : ∀ o n, R o (o.atVersion d n)) (total : ℕ)
    (b : Block S) : Block.Related R b (version d total b) := by
  unfold version
  split
  · exact versionBlock_related hsame hversion b 0
  · exact versionNested_related hsame hversion total b

theorem freezeExtents_related {ops : List (Op S)}
    (hR : ∀ o, R o (o.freezeExtent ops d)) (b : Block S) :
    Block.Related R b (freezeExtents ops d b) := by
  induction b with
  | done => exact .done
  | op o r ih => exact .op (hR o) ih
  | branch c t e r iht ihe ihr => exact .branch iht ihe ihr
  | loop c body r ihb ihr => exact .loop ihb ihr

theorem versionOne_related (hR : Covers d R) (b : Block S) :
    Block.Related R b (versionOne d b) := by
  unfold versionOne
  cases decision d b with
  | untouched => exact .refl hR.same b
  | versioned => exact version_related hR.same hR.version _ b
  | frozen => exact freezeExtents_related (fun o => hR.freeze o b.ops) b

/-- The rewriting of one declare leaves the cells of the others alone. -/
theorem covers_sameCell (h : c.scalar ≠ d) :
    Covers (S := S) d (SameKinds (Op.Reads c) (Op.Writes c)) := by
  have hred : ∀ (m : ℕ) (c' : Cell), redirect d (current d m) c' = c ↔ c' = c := by
    intro m c'
    unfold redirect
    split
    · subst_vars
      constructor
      · rintro rfl
        exact absurd (current_scalar d m) h
      · rintro rfl
        exact absurd rfl h
    · rfl
  refine ⟨fun o => ⟨Iff.rfl, Iff.rfl⟩, ?_, ?_⟩
  · intro o n
    cases o with
    | load dst c' => exact ⟨hred n c', Iff.rfl⟩
    | write c' v => exact ⟨Iff.rfl, hred (n + 1) c'⟩
    | _ => exact ⟨Iff.rfl, Iff.rfl⟩
  · intro o ops
    cases o with
    | load dst c' =>
      show SameKinds (Op.Reads c) (Op.Writes c) _ (if _ then _ else _)
      split
      · rename_i he
        obtain rfl : c' = .own d := by
          simp only [Op.extentLoad, Bool.and_eq_true, decide_eq_true_eq] at he
          exact he.1
        have h1 : c ≠ .own d := fun hc => h (by rw [hc]; rfl)
        have h2 : c ≠ .frozen d dst := fun hc => h (by rw [hc]; rfl)
        exact ⟨by simp [Op.Reads, h1, h2, Ne.symm h1], by simp [Op.Writes, h2]⟩
      · exact ⟨Iff.rfl, Iff.rfl⟩
    | _ => exact ⟨Iff.rfl, Iff.rfl⟩

/-! ## Versions are written before they are read -/

/-- Fresh code mentions no version. -/
theorem not_version_of_fresh (h : o.Fresh d) (k : ℕ) :
    ¬ o.Reads (.version d k) ∧ ¬ o.Writes (.version d k) := by
  cases o with
  | load dst c =>
    refine ⟨?_, fun hw => hw⟩
    rintro rfl
    exact absurd (h rfl) (by simp)
  | write c v =>
    refine ⟨fun hr => hr, ?_⟩
    rintro rfl
    exact absurd (h rfl) (by simp)
  | freeze dst d' => simp [Op.Reads, Op.Writes]
  | _ => exact ⟨fun hr => hr, fun hw => hw⟩

theorem not_reads_version (h : b.Fresh d) (k : ℕ) :
    ¬ b.Has (Op.Reads (.version d k)) := by
  rintro ⟨o, ho, hr⟩
  exact (not_version_of_fresh (h o ho) k).1 hr

theorem not_writes_version (h : b.Fresh d) (k : ℕ) :
    ¬ b.Has (Op.Writes (.version d k)) := by
  rintro ⟨o, ho, hw⟩
  exact (not_version_of_fresh (h o ho) k).2 hw

/-- After `n` stores no version up to the `n`-th is written again. -/
theorem not_writes_versionBlock {d k : ℕ} (hf : b.Fresh d) {n : ℕ} (hk : k ≤ n) :
    ¬ (versionBlock d n b).Has (Op.Writes (.version d k)) := by
  induction b generalizing n with
  | done =>
    rintro ⟨o, ho, -⟩
    cases ho
  | op o r ih =>
    obtain ⟨ho, hr⟩ := fresh_op hf
    rw [versionBlock, has_op, not_or]
    refine ⟨?_, ih hr (by omega)⟩
    cases o with
    | write c v =>
      show ¬ redirect d (current d (n + 1)) c = .version d k
      unfold redirect
      split
      · unfold current
        split
        · simp
        · simp only [Cell.version.injEq, true_and]
          omega
      · rintro rfl
        exact absurd (ho rfl) (by simp)
    | freeze dst d' => simp [Op.atVersion, Op.Writes]
    | _ => exact fun h => h
  | branch c t e r _ _ ih =>
    obtain ⟨ht, he, hr⟩ := fresh_branch hf
    rw [versionBlock, has_branch, not_or, not_or]
    exact ⟨⟨not_writes_version ht k, not_writes_version he k⟩, ih hr hk⟩
  | loop c body r _ ih =>
    obtain ⟨hb, hr⟩ := fresh_loop hf
    rw [versionBlock, has_loop, not_or]
    exact ⟨not_writes_version hb k, ih hr hk⟩

/-- The forward pass reads a version only after the store that writes it. -/
theorem guarded_versionBlock {d k : ℕ} (hf : b.Fresh d) (n : ℕ) :
    (versionBlock d n b).Guarded (Op.Reads (.version d k)) (Op.Writes (.version d k)) := by
  induction b generalizing n with
  | done => trivial
  | op o r ih =>
    obtain ⟨ho, hr⟩ := fresh_op hf
    refine ⟨?_, ih hr _⟩
    intro hread
    -- the operation reads the version only if it is the current one
    have hk : k ≤ n := by
      cases o with
      | load dst c =>
        have hread : redirect d (current d n) c = .version d k := hread
        unfold redirect at hread
        split at hread
        · unfold current at hread
          split at hread
          · cases hread
          · simp only [Cell.version.injEq, true_and] at hread
            omega
        · rw [hread] at ho
          exact absurd (ho rfl) (by simp)
      | freeze dst d' => simp [Op.atVersion, Op.Reads] at hread
      | _ => exact hread.elim
    exact not_writes_versionBlock hr (by omega)
  | branch c t e r _ _ ih =>
    obtain ⟨ht, he, hr⟩ := fresh_branch hf
    refine ⟨?_, guarded_of_not_has (not_reads_version ht k),
      guarded_of_not_has (not_reads_version he k), ih hr n⟩
    rintro (h | h)
    · exact absurd h (not_reads_version ht k)
    · exact absurd h (not_reads_version he k)
  | loop c body r _ ih =>
    obtain ⟨hb, hr⟩ := fresh_loop hf
    exact ⟨fun h => absurd h (not_reads_version hb k),
      guarded_of_not_has (not_reads_version hb k), ih hr n⟩

/-- Only the block of the stores gets versions. -/
theorem total_le_of_reads_versionNested (hf : b.Fresh d)
    (h : (versionNested d total b).Has (Op.Reads (.version d k))) : total ≤ b.storeCount d := by
  induction b with
  | done => exact absurd h (not_reads_version hf k)
  | op o r ih =>
    obtain ⟨ho, hr⟩ := fresh_op hf
    rw [versionNested, has_op] at h
    have := ih hr (h.resolve_left (not_version_of_fresh ho k).1)
    rw [storeCount_op]
    omega
  | branch c t e r iht ihe ihr =>
    obtain ⟨ht, he, hr⟩ := fresh_branch hf
    rw [versionNested, has_branch] at h
    have htop := topStores_le_storeCount d t
    have hetop := topStores_le_storeCount d e
    rw [storeCount_branch]
    rcases h with (h | h) | h
    · split at h
      · omega
      · have := iht ht h
        omega
    · split at h
      · omega
      · have := ihe he h
        omega
    · have := ihr hr h
      omega
  | loop c body r _ ih =>
    obtain ⟨hb, hr⟩ := fresh_loop hf
    rw [versionNested, has_loop] at h
    have := ih hr (h.resolve_left (not_reads_version hb k))
    rw [storeCount_loop]
    omega

theorem total_le_of_reads (hf : b.Fresh d)
    (h : (if b.topStores d = total then versionBlock d 0 b
      else versionNested d total b).Has (Op.Reads (.version d k))) : total ≤ b.storeCount d := by
  split at h
  · have := topStores_le_storeCount d b
    omega
  · exact total_le_of_reads_versionNested hf h

/-- So does the search for the block of the stores. -/
theorem guarded_versionNested (htot : 0 < total)
    (hf : b.Fresh d) (hle : b.storeCount d ≤ total) :
    (versionNested d total b).Guarded (Op.Reads (.version d k)) (Op.Writes (.version d k)) := by
  induction b with
  | done => trivial
  | op o r ih =>
    obtain ⟨ho, hr⟩ := fresh_op hf
    rw [storeCount_op] at hle
    exact ⟨fun h => absurd h (not_version_of_fresh ho k).1, ih hr (by omega)⟩
  | branch c t e r iht ihe ihr =>
    obtain ⟨ht, he, hr⟩ := fresh_branch hf
    rw [storeCount_branch] at hle
    have htg : (if t.topStores d = total then versionBlock d 0 t
        else versionNested d total t).Guarded (Op.Reads (.version d k))
          (Op.Writes (.version d k)) := by
      split
      · exact guarded_versionBlock ht 0
      · exact iht ht (by omega)
    have heg : (if e.topStores d = total then versionBlock d 0 e
        else versionNested d total e).Guarded (Op.Reads (.version d k))
          (Op.Writes (.version d k)) := by
      split
      · exact guarded_versionBlock he 0
      · exact ihe he (by omega)
    refine ⟨?_, htg, heg, ihr hr (by omega)⟩
    intro hread
    have hr0 : r.storeCount d = 0 := by
      rcases hread with h | h
      · have := total_le_of_reads ht h
        omega
      · have := total_le_of_reads he h
        omega
    rw [versionNested_of_noStores htot hr0]
    exact not_writes_version hr k
  | loop c body r _ ih =>
    obtain ⟨hb, hr⟩ := fresh_loop hf
    rw [storeCount_loop] at hle
    exact ⟨fun h => absurd h (not_reads_version hb k),
      guarded_of_not_has (not_reads_version hb k), ih hr (by omega)⟩

/-! ## The first store keeps the declare -/

theorem storesTo_iff (h : o.Fresh d) : o.StoresTo d ↔ o.stores d = true := by
  cases o with
  | write c v =>
    show c.scalar = d ↔ decide (c = .own d) = true
    rw [decide_eq_true_eq]
    refine ⟨h, ?_⟩
    rintro rfl
    rfl
  | _ => simp [Op.StoresTo, Op.stores]

theorem storesTo_of_writes (h : o.Writes (.own d)) : o.StoresTo d := by
  cases o with
  | write c v =>
    have hc : c = .own d := h
    show c.scalar = d
    rw [hc]
    rfl
  | freeze dst d' => cases h
  | _ => exact h.elim

theorem has_storesTo (hf : b.Fresh d) : b.Has (Op.StoresTo d) ↔ b.storeCount d ≠ 0 := by
  rw [Block.storeCount, Ne, countP_eq_zero]
  push Not
  exact exists_congr fun o => and_congr_right fun ho => storesTo_iff (hf o ho)

theorem not_has_writes (hf : b.Fresh d) (h : b.storeCount d = 0) :
    ¬ b.Has (Op.Writes (.own d)) := by
  rintro ⟨o, ho, hw⟩
  exact (has_storesTo hf).1 ⟨o, ho, storesTo_of_writes hw⟩ h

theorem storesTo_redirect (d' n : ℕ) (c : Cell) (v : ℕ) :
    (Op.write (redirect d' (current d' n) c) v : Op S).StoresTo d ↔
      (Op.write c v : Op S).StoresTo d := by
  show (redirect d' (current d' n) c).scalar = d ↔ c.scalar = d
  unfold redirect
  split
  · subst_vars
    rw [current_scalar]
    rfl
  · rfl

/-- A rewriting stores to the scalars that the code stored to. -/
theorem covers_storesTo (d' d : ℕ) :
    Covers (S := S) d' fun o o' => o'.StoresTo d ↔ o.StoresTo d := by
  refine ⟨fun _ => Iff.rfl, ?_, ?_⟩
  · intro o n
    cases o with
    | write c v => exact storesTo_redirect d' (n + 1) c v
    | _ => exact Iff.rfl
  · intro o ops
    cases o with
    | load dst c =>
      show Op.StoresTo d (if _ then _ else _) ↔ _
      split <;> exact Iff.rfl
    | _ => exact Iff.rfl

/-- Behind the first store the forward pass stores to no declare. -/
theorem not_writesOwn_versionBlock (hf : b.Fresh d) (hall : b.storeCount d = b.topStores d) {n : ℕ}
    (hn : 1 ≤ n) : ¬ (versionBlock d n b).Has (Op.Writes (.own d)) := by
  induction b generalizing n with
  | done =>
    rintro ⟨o, ho, -⟩
    cases ho
  | op o r ih =>
    obtain ⟨ho, hr⟩ := fresh_op hf
    rw [storeCount_op, Block.topStores] at hall
    rw [versionBlock, has_op, not_or]
    refine ⟨?_, ih hr (by omega) (by omega)⟩
    cases o with
    | write c v =>
      show ¬ redirect d (current d (n + 1)) c = .own d
      unfold redirect
      split
      · rw [current, if_neg (by omega)]
        simp
      · assumption
    | freeze dst d' => simp [Op.atVersion, Op.Writes]
    | _ => exact fun h => h
  | branch c t e r _ _ ih =>
    obtain ⟨ht, he, hr⟩ := fresh_branch hf
    have htop := topStores_le_storeCount d r
    rw [storeCount_branch, Block.topStores] at hall
    rw [versionBlock, has_branch, not_or, not_or]
    exact ⟨⟨not_has_writes ht (by omega), not_has_writes he (by omega)⟩, ih hr (by omega) hn⟩
  | loop c body r _ ih =>
    obtain ⟨hb, hr⟩ := fresh_loop hf
    have htop := topStores_le_storeCount d r
    rw [storeCount_loop, Block.topStores] at hall
    rw [versionBlock, has_loop, not_or]
    exact ⟨not_has_writes hb (by omega), ih hr (by omega) hn⟩

theorem guarded_of_noStores {B : Op S → Prop} (hf : b.Fresh d) (h : b.storeCount d = 0) :
    b.Guarded (Op.StoresTo d) B :=
  guarded_of_not_has fun hs => (has_storesTo hf).1 hs h

theorem firstStore_versionBlock (hf : b.Fresh d) (hall : b.storeCount d = b.topStores d) (n : ℕ) :
    (versionBlock d n b).Guarded (Op.StoresTo d) (Op.Writes (.own d)) := by
  induction b generalizing n with
  | done => trivial
  | op o r ih =>
    obtain ⟨ho, hr⟩ := fresh_op hf
    rw [storeCount_op, Block.topStores] at hall
    refine ⟨fun hs => ?_, ih hr (by omega) _⟩
    have hstores : o.stores d = true :=
      (storesTo_iff ho).1 (((covers_storesTo d d).version o n).1 hs)
    rw [if_pos hstores]
    exact not_writesOwn_versionBlock hr (by omega) (by omega)
  | branch c t e r _ _ ih =>
    obtain ⟨ht, he, hr⟩ := fresh_branch hf
    have htop := topStores_le_storeCount d r
    rw [storeCount_branch, Block.topStores] at hall
    have ht0 : t.storeCount d = 0 := by omega
    have he0 : e.storeCount d = 0 := by omega
    refine ⟨?_, guarded_of_noStores ht ht0, guarded_of_noStores he he0, ih hr (by omega) n⟩
    rintro (h | h)
    · exact absurd ht0 ((has_storesTo ht).1 h)
    · exact absurd he0 ((has_storesTo he).1 h)
  | loop c body r _ ih =>
    obtain ⟨hb, hr⟩ := fresh_loop hf
    have htop := topStores_le_storeCount d r
    rw [storeCount_loop, Block.topStores] at hall
    have hb0 : body.storeCount d = 0 := by omega
    exact ⟨fun h => absurd hb0 ((has_storesTo hb).1 h), guarded_of_noStores hb hb0,
      ih hr (by omega) n⟩

/-- One arm of a branch, which holds all the stores or none. -/
theorem firstStore_arm (htot : 0 < total) (hf : b.Fresh d) (hle : b.storeCount d ≤ total)
    (hnested : nestedBlock d total b = true →
      (versionNested d total b).Guarded (Op.StoresTo d) (Op.Writes (.own d)))
    (h : b.storeCount d = 0 ∨ b.topStores d = total ∨ nestedBlock d total b = true) :
    (if b.topStores d = total then versionBlock d 0 b
      else versionNested d total b).Guarded (Op.StoresTo d) (Op.Writes (.own d)) := by
  have htop := topStores_le_storeCount d b
  rcases h with h | h | h
  · rw [if_neg (by omega), versionNested_of_noStores htot h]
    exact guarded_of_noStores hf h
  · rw [if_pos h]
    exact firstStore_versionBlock hf (by omega) 0
  · split
    · exact firstStore_versionBlock hf (by omega) 0
    · exact hnested h

theorem firstStore_versionNested (htot : 0 < total) (hf : b.Fresh d)
    (hin : nestedBlock d total b = true) (hle : b.storeCount d ≤ total) :
    (versionNested d total b).Guarded (Op.StoresTo d) (Op.Writes (.own d)) := by
  induction b with
  | done => trivial
  | op o r ih =>
    obtain ⟨ho, hr⟩ := fresh_op hf
    have hge := storeCount_le_of_nestedBlock (b := r) hin
    rw [storeCount_op] at hle
    refine ⟨fun hs => ?_, ih hr hin (by omega)⟩
    rw [if_pos ((storesTo_iff ho).1 hs)] at hle
    omega
  | branch c t e r iht ihe ihr =>
    obtain ⟨ht, he, hr⟩ := fresh_branch hf
    rw [storeCount_branch] at hle
    have hstores : ∀ {x : Block S}, x.Fresh d → x.storeCount d = 0 →
        ¬ (if x.topStores d = total then versionBlock d 0 x
          else versionNested d total x).Has (Op.StoresTo d) := by
      intro x hx h0
      have htop := topStores_le_storeCount d x
      rw [if_neg (by omega), versionNested_of_noStores htot h0, has_storesTo hx, not_not]
      exact h0
    have harms : t.storeCount d = 0 ∧ e.storeCount d = 0 ∧ nestedBlock d total r = true ∨
        r.storeCount d = 0 ∧ (t.storeCount d = 0 ∨ t.topStores d = total ∨
          nestedBlock d total t = true) ∧
          (e.storeCount d = 0 ∨ e.topStores d = total ∨ nestedBlock d total e = true) := by
      simp only [nestedBlock, Bool.or_eq_true, decide_eq_true_eq] at hin
      rcases hin with (h | h) | h
      · have := storeCount_le_of_inOneBlock h
        exact .inr ⟨by omega, .inr h, .inl (by omega)⟩
      · have := storeCount_le_of_inOneBlock h
        exact .inr ⟨by omega, .inl (by omega), .inr h⟩
      · have := storeCount_le_of_nestedBlock h
        exact .inl ⟨by omega, by omega, h⟩
    rcases harms with ⟨ht0, he0, hr1⟩ | ⟨hr0, ht1, he1⟩
    · refine ⟨?_, firstStore_arm htot ht (by omega) (fun h => iht ht h (by omega)) (.inl ht0),
        firstStore_arm htot he (by omega) (fun h => ihe he h (by omega)) (.inl he0),
          ihr hr hr1 (by omega)⟩
      rintro (h | h)
      · exact absurd h (hstores ht ht0)
      · exact absurd h (hstores he he0)
    · rw [versionNested, versionNested_of_noStores htot hr0]
      refine ⟨fun _ => not_has_writes hr hr0,
        firstStore_arm htot ht (by omega) (fun h => iht ht h (by omega)) ht1,
        firstStore_arm htot he (by omega) (fun h => ihe he h (by omega)) he1,
          guarded_of_noStores hr hr0⟩
  | loop c body r _ ih =>
    obtain ⟨hb, hr⟩ := fresh_loop hf
    have hge := storeCount_le_of_nestedBlock (b := r) hin
    rw [storeCount_loop] at hle
    have hb0 : body.storeCount d = 0 := by omega
    exact ⟨fun h => absurd hb0 ((has_storesTo hb).1 h), guarded_of_noStores hb hb0,
      ih hr hin (by omega)⟩

/-- **Of the stores of a versioned scalar only the first is one to the declare.** -/
theorem firstStore_versionOne (hf : b.Fresh d) (h : decision d b = .versioned) :
    (versionOne d b).Guarded (Op.StoresTo d) (Op.Writes (.own d)) := by
  have hone : 0 < b.storeCount d ∧ inOneBlock d (b.storeCount d) b = true := by
    unfold decision at h
    split at h
    · cases h
    · split at h
      · cases h
      · split at h
        · exact ⟨by omega, by assumption⟩
        · cases h
  unfold versionOne version
  rw [h]
  simp only
  split
  · exact firstStore_versionBlock hf (by omega) 0
  · rename_i hne
    refine firstStore_versionNested hone.1 hf ?_ (Nat.le_refl _)
    have hin := hone.2
    rw [inOneBlock, Bool.or_eq_true, decide_eq_true_eq] at hin
    exact hin.resolve_left hne

end ShapeScalars

/-
# Extents after `VersionShapeScalars`

What the pass promises of the arrays that are live: the cell an extent was loaded from
still holds the extent.  A version is stored once, before every load of it; a frozen
scalar is no longer what an extent is loaded from.  What is left are the stores to a
declare's own cell, and a snapshot taken again.
-/

namespace ShapeScalars

variable {S : Type}

/-! ## Where an extent comes from -/

/-- The value `w` is extent arithmetic on `v`. -/
def Derives (ops : List (Op S)) : ℕ → ℕ → Prop :=
  Relation.ReflTransGen fun v w => ∃ o ∈ ops, o.extentOf? v = some w

/-- Some allocation has an extent computed from `v`. -/
def FeedsAllocation (ops : List (Op S)) (v : ℕ) : Prop :=
  ∃ w, Derives ops v w ∧ ∃ o ∈ ops, o.allocates w = true

/-- The operation loads the cell into `dst`. -/
def Op.Loads (dst : ℕ) (c : Cell) : Op S → Prop
  | .load dst' c' => dst' = dst ∧ c' = c
  | .freeze dst' d => dst' = dst ∧ c = .frozen d dst'
  | _ => False

/-- The two operations allocate and compute extents alike. -/
def SameExtent (o o' : Op S) : Prop :=
  (∀ v, o'.allocates v = o.allocates v) ∧ ∀ v, o'.extentOf? v = o.extentOf? v

theorem covers_sameExtent (d : ℕ) : Covers (S := S) d SameExtent := by
  refine ⟨fun o => ⟨fun _ => rfl, fun _ => rfl⟩, ?_, ?_⟩
  · intro o n
    cases o <;> exact ⟨fun _ => rfl, fun _ => rfl⟩
  · intro o ops
    cases o with
    | load dst c =>
      show SameExtent _ (if _ then _ else _)
      split <;> exact ⟨fun _ => rfl, fun _ => rfl⟩
    | _ => exact ⟨fun _ => rfl, fun _ => rfl⟩

variable {l l' : List (Op S)}

theorem any_congr (h : List.Forall₂ SameExtent l l') (v : ℕ) :
    l'.any (Op.allocates v) = l.any (Op.allocates v) := by
  induction h with
  | nil => rfl
  | cons ho _ ih => simp [ho.1 v, ih]

theorem filterMap_congr (h : List.Forall₂ SameExtent l l') (v : ℕ) :
    l'.filterMap (Op.extentOf? v) = l.filterMap (Op.extentOf? v) := by
  induction h with
  | nil => rfl
  | cons ho _ ih => simp [filterMap_cons, ho.2 v, ih]

theorem forwardWalk_congr (h : List.Forall₂ SameExtent l l') (n : ℕ)
    (work seen : List ℕ) : forwardWalk l' n work seen = forwardWalk l n work seen := by
  induction n generalizing work seen with
  | zero => rfl
  | succ n ih =>
    cases work with
    | nil => rfl
    | cons cur work =>
      unfold forwardWalk
      rw [any_congr h, filterMap_congr h]
      simp only [ih]

/-- A rewriting does not change what the forward walk finds. -/
theorem feeds_versionOne (d : ℕ) (b : Block S) (v : ℕ) :
    feedsAllocateExtent (versionOne d b).ops v = feedsAllocateExtent b.ops v :=
  forwardWalk_congr (versionOne_related (covers_sameExtent d) b).ops _ _ _

theorem feedsAllocation_versionOne (d : ℕ) (b : Block S) (v : ℕ) :
    FeedsAllocation (versionOne d b).ops v ↔ FeedsAllocation b.ops v := by
  have hrel := versionOne_related (covers_sameExtent d) b
  have hd : ∀ w w', (∃ o ∈ (versionOne d b).ops, o.extentOf? w = some w') ↔
      ∃ o ∈ b.ops, o.extentOf? w = some w' := by
    intro w w'
    exact hrel.exists_iff fun o o' h => by rw [h.2 w]
  have ha : ∀ w, (∃ o ∈ (versionOne d b).ops, o.allocates w = true) ↔
      ∃ o ∈ b.ops, o.allocates w = true := by
    intro w
    exact hrel.exists_iff fun o o' h => by rw [h.1 w]
  unfold FeedsAllocation Derives
  simp only [hd, ha]

/-! ## The code after the pass -/

/-- What becomes of a declare, at its turn. -/
def decisionAt : List ℕ → Block S → ℕ → Decision
  | [], _, _ => .untouched
  | d :: ds, b, x => if x = d then decision d b else decisionAt ds (versionOne d b) x

/-- The forward walk finds every allocation that a load of a frozen declare feeds: it is not cut
off. -/
def WalkComplete (ds : List ℕ) (b : Block S) : Prop :=
  ∀ d, decisionAt ds b d = .frozen → ∀ dst, (∃ o ∈ b.ops, o.Loads dst (.own d)) →
    FeedsAllocation b.ops dst → feedsAllocateExtent b.ops dst = true

/-- A store to a snapshot. -/
def Op.WritesSnapshot : Op S → Prop
  | .write (.frozen _ _) _ => True
  | _ => False

/-- What holds of the code once some declares have been rewritten. -/
structure Ordered (b : Block S) : Prop where
  /-- versions are written before they are read -/
  guarded : ∀ d k, b.Guarded (Op.Reads (.version d k)) (Op.Writes (.version d k))
  /-- only the load that reads a snapshot writes it -/
  snapshots : ¬ ∃ o ∈ b.ops, o.WritesSnapshot

theorem redirect_writesSnapshot (d n : ℕ) (c : Cell) (v : ℕ) :
    (Op.write (redirect d (current d n) c) v : Op S).WritesSnapshot ↔
      (Op.write c v : Op S).WritesSnapshot := by
  unfold redirect
  split
  · subst_vars
    unfold current
    split <;> exact Iff.rfl
  · exact Iff.rfl

theorem covers_writesSnapshot (d : ℕ) :
    Covers (S := S) d fun o o' => o'.WritesSnapshot ↔ o.WritesSnapshot := by
  refine ⟨fun _ => Iff.rfl, ?_, ?_⟩
  · intro o n
    cases o with
    | write c v => exact redirect_writesSnapshot d (n + 1) c v
    | _ => exact Iff.rfl
  · intro o ops
    cases o with
    | load dst c =>
      show Op.WritesSnapshot (if _ then _ else _) ↔ _
      split <;> exact Iff.rfl
    | _ => exact Iff.rfl

variable {b : Block S}

/-- Freezing mentions no version. -/
theorem not_reads_freezeExtents {d k : ℕ} {ops : List (Op S)} (hf : b.Fresh d) :
    ¬ (freezeExtents ops d b).Has (Op.Reads (.version d k)) := by
  have hrel : Block.Related (fun o o' => o'.Reads (.version d k) ↔ o.Reads (.version d k)) b
      (freezeExtents ops d b) := by
    apply freezeExtents_related
    intro o
    cases o with
    | load dst c =>
      show Op.Reads _ (if _ then _ else _) ↔ _
      split
      · rename_i he
        obtain rfl : c = .own d := by
          simp only [Op.extentLoad, Bool.and_eq_true, decide_eq_true_eq] at he
          exact he.1
        simp [Op.Reads]
      · exact Iff.rfl
    | _ => exact Iff.rfl
  intro h
  exact not_reads_version hf k ((hrel.exists_iff fun _ _ ho => ho).mp h)

theorem ordered_versionOne {d : ℕ} (h : Ordered b) (hf : b.Fresh d) :
    Ordered (versionOne d b) := by
  constructor
  · intro d' k
    by_cases hd : d' = d
    · subst hd
      unfold versionOne
      cases hdec : decision d' b with
      | untouched => exact h.guarded d' k
      | versioned =>
        show (version d' (b.storeCount d') b).Guarded (Op.Reads (.version d' k))
          (Op.Writes (.version d' k))
        have htot : 0 < b.storeCount d' := by
          unfold decision at hdec
          split at hdec
          · cases hdec
          · omega
        unfold version
        split
        · exact guarded_versionBlock hf 0
        · exact guarded_versionNested htot hf (Nat.le_refl _)
      | frozen => exact guarded_of_not_has (not_reads_freezeExtents hf)
    · have hne : (Cell.version d' k).scalar ≠ d := hd
      exact (versionOne_related (covers_sameCell hne) b).guarded (h.guarded d' k)
  · rw [(versionOne_related (covers_writesSnapshot d) b).exists_iff fun _ _ ho => ho]
    exact h.snapshots

/-- The operations load the cell alike. -/
theorem covers_loads {d : ℕ} {c : Cell} (h : c.scalar ≠ d) :
    Covers (S := S) d fun o o' => ∀ dst, o'.Loads dst c ↔ o.Loads dst c := by
  refine ⟨fun _ _ => Iff.rfl, ?_, ?_⟩
  · intro o n dst
    cases o with
    | load dst' c' =>
      have hc := ((covers_sameCell (S := S) h).version (.load dst' c') n).1
      show dst' = dst ∧ _ ↔ dst' = dst ∧ _
      exact and_congr_right fun _ => hc
    | _ => exact Iff.rfl
  · intro o ops dst
    cases o with
    | load dst' c' =>
      show Op.Loads dst c (if _ then _ else _) ↔ _
      split
      · rename_i he
        obtain rfl : c' = .own d := by
          simp only [Op.extentLoad, Bool.and_eq_true, decide_eq_true_eq] at he
          exact he.1
        have h1 : c ≠ .own d := fun hc => h (by rw [hc]; rfl)
        have h2 : c ≠ .frozen d dst' := fun hc => h (by rw [hc]; rfl)
        simp [Op.Loads, h2, Ne.symm h1]
      · exact Iff.rfl
    | _ => exact Iff.rfl

theorem loads_versionOne {d : ℕ} {c : Cell} (h : c.scalar ≠ d) (b : Block S) (dst : ℕ) :
    (∃ o ∈ (versionOne d b).ops, o.Loads dst c) ↔ ∃ o ∈ b.ops, o.Loads dst c :=
  (versionOne_related (covers_loads h) b).exists_iff fun _ _ ho => ho dst

/-- The loads of the declare that freezing leaves feed no allocation. -/
theorem loads_freezeExtents {d dst : ℕ} {ops : List (Op S)} :
    (∃ o ∈ (freezeExtents ops d b).ops, o.Loads dst (.own d)) →
      (∃ o ∈ b.ops, o.Loads dst (.own d)) ∧ feedsAllocateExtent ops dst = false := by
  have hrel : Block.Related (fun o o' => (o'.Loads dst (.own d)) ↔
      (o.Loads dst (.own d) ∧ feedsAllocateExtent ops dst = false)) b (freezeExtents ops d b) := by
    apply freezeExtents_related
    intro o
    cases o with
    | load dst' c =>
      show Op.Loads _ _ (if _ then _ else _) ↔ _
      split
      · rename_i he
        simp only [Op.extentLoad, Bool.and_eq_true, decide_eq_true_eq] at he
        obtain ⟨rfl, hfeeds⟩ := he
        simp only [Op.Loads, reduceCtorEq, and_false, and_true, false_iff, not_and,
          Bool.not_eq_false]
        rintro rfl
        exact hfeeds
      · rename_i he
        simp only [Op.extentLoad, Bool.and_eq_true, decide_eq_true_eq, not_and,
          Bool.not_eq_true] at he
        simp only [Op.Loads]
        constructor
        · rintro ⟨rfl, rfl⟩
          exact ⟨⟨rfl, rfl⟩, he rfl⟩
        · exact fun h => h.1
    | freeze dst' d' => simp [Op.freezeExtent, Op.Loads]
    | _ => simp [Op.freezeExtent, Op.Loads]
  rintro ⟨o', ho', hl⟩
  have hops := hrel.ops
  obtain ⟨o, ho, hoo⟩ := exists_of_forall₂ hops ho'
  exact ⟨⟨o, ho, (hoo.mp hl).1⟩, (hoo.mp hl).2⟩

end ShapeScalars
