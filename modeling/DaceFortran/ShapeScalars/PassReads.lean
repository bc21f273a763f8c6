/-
# Every read after the pass

The declares one after the other: each rewriting keeps the reads of the code it is given,
and leaves the cells of the later declares alone.
-/
import DaceFortran.ShapeScalars.ReadsPreserved

open List

namespace ShapeScalars

variable {S : Type}

/-- Two runs compute on the same data, do the same loads with the same values, and return the same
dummy arguments. -/
structure Agree (dummies : List ℕ) (s t : State S) : Prop where
  data : t.data = s.data
  reads : nextRead t = nextRead s
  finished : t.todo = [] ↔ s.todo = []
  returned : s.todo = [] → ∀ d ∈ dummies, t.cells (.own d) = s.cells (.own d)

theorem Agree.refl (dummies : List ℕ) (s : State S) : Agree dummies s s :=
  ⟨rfl, rfl, Iff.rfl, fun _ _ _ => rfl⟩

variable {dummies : List ℕ} {ops : List (Op S)} {d d' : ℕ}

variable {s t : State S} {o : Op S}

theorem Agree.trans {u : State S} (h : Agree dummies s t)
    (h' : Agree dummies t u) : Agree dummies s u := by
  refine ⟨h'.data.trans h.data, h'.reads.trans h.reads, h'.finished.trans h.finished, ?_⟩
  intro hs d hd
  rw [h'.returned (h.finished.mpr hs) d hd, h.returned hs d hd]

/-! ## One declare -/

variable {d : ℕ} {b : Block S}

theorem stale_nil_of_stale
    (h : stale dummies d t = false) : stale [] d t = false := by
  unfold stale at h ⊢
  cases ht : t.todo with
  | nil => simp
  | cons x k =>
    rw [ht] at h
    cases x with
    | op o r => cases o <;> exact h
    | _ => exact h

theorem Corr.finished {d total n : ℕ} {a b : List (Block S)} (h : Corr d total n a b) :
    b = [] ↔ a = [] := by
  cases h <;> simp

theorem Versioned.agree {d total : ℕ}
    (h : Versioned d total s t) (hst : stale dummies d t = false) : Agree dummies s t := by
  refine ⟨h.same.data, h.nextRead_eq (stale_nil_of_stale hst), h.corr.finished, ?_⟩
  intro hs d' hd'
  by_cases he : d' = d
  · subst he
    have hn : s.stored d' < 2 := by
      by_contra hn
      rw [← h.same.stored] at hn
      have h2 : 2 ≤ t.stored d' := by omega
      simp [stale, h.corr.finished.mpr hs, h2, hd'] at hst
    have hv := h.same.value
    rwa [current_eq_own hn] at hv
  · exact h.same.others (.own d') he

theorem Frozen.agree (dummies : List ℕ)
    (h : Frozen ops d s t) : Agree dummies s t := by
  refine ⟨h.data, h.nextRead_eq, ?_, fun _ d' _ => h.cells (.own d') (by simp)⟩
  rw [h.todo, map_eq_nil_iff]

/-- Entering the straight-line case. -/
theorem versioned_start (hf : b.Fresh d)
    (hd : inOneBlock d (b.storeCount d) b = true) (data : Data S) (cells : Cell → ℤ) :
    Versioned d (b.storeCount d) (start b data cells)
      (start (version d (b.storeCount d) b) data cells) := by
  refine ⟨?_, ⟨rfl, rfl, rfl, fun _ _ => rfl⟩, ?_⟩
  · show Corr d _ 0 [b] [version d (b.storeCount d) b]
    unfold version
    by_cases ht : b.topStores d = b.storeCount d
    · rw [if_pos ht]
      exact .walk ht (by simp)
    · rw [if_neg ht]
      refine .seek ?_ (Nat.le_refl _) (by simp)
      simpa [inOneBlock, ht] using hd
  · intro x hx
    obtain rfl := mem_singleton.mp hx
    exact hf

theorem frozen_start (hf : b.Fresh d) (data : Data S)
    (cells : Cell → ℤ) :
    Frozen b.ops d (start b data cells) (start (freezeExtents b.ops d b) data cells) := by
  refine ⟨rfl, rfl, fun _ _ => rfl, ?_⟩
  intro x hx
  obtain rfl := mem_singleton.mp hx
  exact hf

/-- **One declare, every run**: the rewritten code reads what the given code reads, as long as no
step of it is stale. -/
theorem versionOne_agree (hf : b.Fresh d) (dummies : List ℕ)
    (data : Data S) (cells : Cell → ℤ) (n : ℕ)
    (h : decision d b = .versioned → ∀ m ≤ n,
      stale dummies d (run (start (versionOne d b) data cells) m) = false) :
    Agree dummies (run (start b data cells) n) (run (start (versionOne d b) data cells) n) := by
  unfold versionOne at h ⊢
  cases hdec : decision d b with
  | untouched => exact Agree.refl _ _
  | versioned =>
    simp only [hdec, forall_const] at h ⊢
    have hone : 2 ≤ b.storeCount d ∧ inOneBlock d (b.storeCount d) b = true := by
      unfold decision at hdec
      split at hdec
      · cases hdec
      · split at hdec
        · cases hdec
        · split at hdec
          · exact ⟨by omega, ‹_›⟩
          · cases hdec
    have hrel : ∀ m ≤ n, Versioned d (b.storeCount d) (run (start b data cells) m)
        (run (start (version d (b.storeCount d) b) data cells) m) := by
      intro m
      induction m with
      | zero =>
        intro _
        exact versioned_start hf hone.2 data cells
      | succ m ih =>
        intro hm
        rw [run_succ, run_succ]
        exact (ih (by omega)).next (by omega) (stale_nil_of_stale (h m (by omega)))
    exact (hrel n (Nat.le_refl _)).agree (h n (Nat.le_refl _))
  | frozen =>
    have hrel : ∀ m, Frozen b.ops d (run (start b data cells) m)
        (run (start (freezeExtents b.ops d b) data cells) m) := by
      intro m
      induction m with
      | zero => exact frozen_start hf data cells
      | succ m ih =>
        rw [run_succ, run_succ]
        exact ih.next
    exact (hrel n).agree dummies

/-! ## The other declares -/

theorem atVersion_fresh {d d' n : ℕ} (hne : d' ≠ d) (h : o.Fresh d') :
    (o.atVersion d n).Fresh d' := by
  have hred : ∀ (m : ℕ) (c : Cell), (c.scalar = d' → c = .own d') →
      (redirect d (current d m) c).scalar = d' → redirect d (current d m) c = .own d' := by
    intro m c hc
    unfold redirect
    split
    · intro hs
      rw [current_scalar] at hs
      exact absurd hs.symm hne
    · exact hc
  cases o with
  | load dst c => exact hred n c h
  | write c v => exact hred (n + 1) c h
  | _ => exact h

theorem freezeExtent_fresh (hne : d' ≠ d)
    (h : o.Fresh d') : (o.freezeExtent ops d).Fresh d' := by
  cases o with
  | load dst c =>
    show Op.Fresh d' (if _ then _ else _)
    split
    · exact Ne.symm hne
    · exact h
  | _ => exact h

theorem fresh_append {l m : List (Op S)} :
    (∀ o ∈ l ++ m, o.Fresh d) ↔ (∀ o ∈ l, o.Fresh d) ∧ ∀ o ∈ m, o.Fresh d :=
  forall_mem_append

theorem versionBlock_fresh (hne : d' ≠ d) (h : b.Fresh d') (n : ℕ) :
    (versionBlock d n b).Fresh d' := by
  induction b generalizing n with
  | done => exact h
  | op o r ih =>
    obtain ⟨ho, hr⟩ := fresh_op h
    intro o' ho'
    rcases mem_cons.mp ho' with rfl | ho'
    · exact atVersion_fresh hne ho
    · exact ih hr _ o' ho'
  | branch c t e r _ _ ih =>
    obtain ⟨ht, he, hr⟩ := fresh_branch h
    exact fresh_append.mpr ⟨fresh_append.mpr ⟨ht, he⟩, ih hr n⟩
  | loop c body r _ ih =>
    obtain ⟨hb, hr⟩ := fresh_loop h
    exact fresh_append.mpr ⟨hb, ih hr n⟩

theorem versionNested_fresh {d d' total : ℕ} (hne : d' ≠ d) (h : b.Fresh d') :
    (versionNested d total b).Fresh d' := by
  induction b with
  | done => exact h
  | op o r ih =>
    obtain ⟨ho, hr⟩ := fresh_op h
    intro o' ho'
    rcases mem_cons.mp ho' with rfl | ho'
    · exact ho
    · exact ih hr o' ho'
  | branch c t e r iht ihe ihr =>
    obtain ⟨ht, he, hr⟩ := fresh_branch h
    refine fresh_append.mpr ⟨fresh_append.mpr ⟨?_, ?_⟩, ihr hr⟩
    · split
      · exact versionBlock_fresh hne ht 0
      · exact iht ht
    · split
      · exact versionBlock_fresh hne he 0
      · exact ihe he
  | loop c body r _ ih =>
    obtain ⟨hb, hr⟩ := fresh_loop h
    exact fresh_append.mpr ⟨hb, ih hr⟩

theorem freezeExtents_fresh (hne : d' ≠ d)
    (h : b.Fresh d') : (freezeExtents ops d b).Fresh d' := by
  induction b with
  | done => exact h
  | op o r ih =>
    obtain ⟨ho, hr⟩ := fresh_op h
    intro o' ho'
    rcases mem_cons.mp ho' with rfl | ho'
    · exact freezeExtent_fresh hne ho
    · exact ih hr o' ho'
  | branch c t e r iht ihe ihr =>
    obtain ⟨ht, he, hr⟩ := fresh_branch h
    exact fresh_append.mpr ⟨fresh_append.mpr ⟨iht ht, ihe he⟩, ihr hr⟩
  | loop c body r ihb ihr =>
    obtain ⟨hb, hr⟩ := fresh_loop h
    exact fresh_append.mpr ⟨ihb hb, ihr hr⟩

theorem versionOne_fresh (hne : d' ≠ d) (h : b.Fresh d') :
    (versionOne d b).Fresh d' := by
  unfold versionOne
  cases decision d b with
  | untouched => exact h
  | versioned =>
    show (version d _ b).Fresh d'
    unfold version
    split
    · exact versionBlock_fresh hne h 0
    · exact versionNested_fresh hne h
  | frozen => exact freezeExtents_fresh hne h

/-! ## The pass -/

/-- No step of the run is stale, after each declare's rewriting. -/
def noStaleRead (dummies : List ℕ) : List ℕ → Block S → Data S → (Cell → ℤ) → ℕ → Bool
  | [], _, _, _, _ => true
  | d :: ds, b, data, cells, n =>
    (decide (decision d b ≠ .versioned) ||
      (List.range (n + 1)).all fun m =>
        !stale dummies d (run (start (versionOne d b) data cells) m)) &&
      noStaleRead dummies ds (versionOne d b) data cells n

theorem versionAll_agree (dummies : List ℕ) (data : Data S) (cells : Cell → ℤ) (n : ℕ)
    (ds : List ℕ) (hnd : ds.Nodup) (b : Block S) (hf : ∀ d ∈ ds, b.Fresh d)
    (h : noStaleRead dummies ds b data cells n = true) :
    Agree dummies (run (start b data cells) n)
      (run (start (versionShapeScalars ds b) data cells) n) := by
  induction ds generalizing b with
  | nil => exact Agree.refl _ _
  | cons d ds ih =>
    obtain ⟨hd, hds⟩ := nodup_cons.mp hnd
    obtain ⟨h1, h2⟩ := Bool.and_eq_true_iff.mp h
    refine Agree.trans (versionOne_agree (hf d mem_cons_self) dummies data cells n ?_)
      (ih hds (versionOne d b) ?_ h2)
    · intro hdec m hm
      simp only [hdec, ne_eq, not_true_eq_false, decide_false, Bool.false_or] at h1
      have := all_eq_true.mp h1 m (mem_range.mpr (by omega))
      simpa using this
    · intro d' hd'
      refine versionOne_fresh ?_ (hf d' (mem_cons_of_mem _ hd'))
      rintro rfl
      exact hd hd'

theorem Op.Source.fresh (h : o.Source) (d : ℕ) : o.Fresh d := by
  cases o with
  | load dst c =>
    intro hs
    rw [← hs]
    exact h
  | write c v =>
    intro hs
    rw [← hs]
    exact h
  | freeze dst d' => exact h.elim
  | _ => trivial

theorem nodup_own : ([0] : List ℕ).Nodup := by decide

/-- `m = 1; allocate(x(m)); m = 2; y = m`. -/
def twoVersions : Function Unit where
  declares := [0]
  declares_nodup := nodup_own
  dummies := []
  body :=
    .op (.other fun m => m.set 0 1) <| .op (.write (.own 0) 0) <| .op (.load 1 (.own 0)) <|
    .op (.allocmem [1]) <| .op (.other fun m => m.set 2 2) <| .op (.write (.own 0) 2) <|
    .op (.load 3 (.own 0)) .done
  body_source := by
    intro o ho
    simp only [Block.ops, List.mem_cons, List.not_mem_nil, or_false] at ho
    rcases ho with rfl | rfl | rfl | rfl | rfl | rfl | rfl <;> trivial

/-- Nothing computed yet. -/
def noData : Data Unit := ⟨fun _ => 0, ()⟩

/-- `m = 1; allocate(x(m)); m = 2; if (.true.) y = m`. -/
def branchLoad : Function Unit where
  declares := [0]
  declares_nodup := nodup_own
  dummies := []
  body :=
    .op (.other fun m => m.set 0 1) <| .op (.write (.own 0) 0) <| .op (.load 1 (.own 0)) <|
    .op (.allocmem [1]) <| .op (.other fun m => m.set 2 2) <| .op (.write (.own 0) 2) <|
    .branch (fun _ => true) (.op (.load 3 (.own 0)) .done) .done .done
  body_source := by
    intro o ho
    simp only [Block.ops, List.mem_append, List.mem_cons, List.not_mem_nil, or_false] at ho
    rcases ho with rfl | rfl | rfl | rfl | rfl | rfl | rfl <;> trivial

end ShapeScalars
