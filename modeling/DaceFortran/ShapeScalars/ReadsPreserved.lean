/-
# Reads after `VersionShapeScalars`

A run of the rewritten code beside a run of the original: what one declare's rewriting
changes is which cell holds the scalar's value.  Snapshots never change a read; versions
keep every read that the forward pass redirects, and every other one up to the second
store.
-/
import DaceFortran.ShapeScalars.VersionOne

open Function List

namespace ShapeScalars

variable {S : Type}

/-! ## Fresh scalars -/

/-- Of the declare's cells, the operation touches only its own. -/
def Op.Fresh (d : ℕ) : Op S → Prop
  | .load _ c | .write c _ => c.scalar = d → c = .own d
  | .freeze _ d' => d' ≠ d
  | _ => True

/-- So do all the operations of a block. -/
def Block.Fresh (d : ℕ) (b : Block S) : Prop := ∀ o ∈ b.ops, o.Fresh d

variable {o : Op S} {s t : State S} {d total : ℕ}

variable {d : ℕ} {k : List (Block S)}

variable {r : Block S} {ops : List (Op S)}

theorem fresh_op (h : (Block.op o r).Fresh d) :
    o.Fresh d ∧ r.Fresh d :=
  ⟨h o mem_cons_self, fun o' ho => h o' (mem_cons_of_mem _ ho)⟩

variable {c : Data S → Bool} {d n : ℕ} {b : Block S}

theorem fresh_branch {t e : Block S}
    (h : (Block.branch c t e r).Fresh d) : t.Fresh d ∧ e.Fresh d ∧ r.Fresh d := by
  refine ⟨?_, ?_, ?_⟩ <;> intro o ho <;> apply h o <;>
    simp only [Block.ops, mem_append] <;> tauto

theorem fresh_loop {body : Block S}
    (h : (Block.loop c body r).Fresh d) : body.Fresh d ∧ r.Fresh d := by
  refine ⟨?_, ?_⟩ <;> intro o ho <;> apply h o <;>
    simp only [Block.ops, mem_append] <;> tauto

/-! ## One cell for another -/

/-- The second state is the first one with the value of the scalar in the cell `cur`. -/
structure SameBut (d : ℕ) (cur : Cell) (s t : State S) : Prop where
  data : t.data = s.data
  stored : t.stored = s.stored
  value : t.cells cur = s.cells (.own d)
  others : ∀ c, c.scalar ≠ d → t.cells c = s.cells c

@[simp] theorem exec_todo (s : State S) (k : List (Block S)) (o : Op S) :
    (exec s k o).todo = k := by
  cases o <;> rfl

@[simp] theorem current_scalar (d n : ℕ) : (current d n).scalar = d := by
  unfold current
  split <;> rfl

theorem current_eq_own (h : n < 2) : current d n = .own d := if_pos (by omega)

theorem stored_exec (s : State S) (k : List (Block S)) (o : Op S) (h : o.Fresh d) :
    (exec s k o).stored d = s.stored d + if o.stores d then 1 else 0 := by
  cases o with
  | write c v =>
    by_cases hc : c.scalar = d
    · obtain rfl := h hc
      simp [exec, Op.stores, Cell.scalar]
    · have hne : c ≠ .own d := fun he => hc (by rw [he]; rfl)
      simp [exec, Op.stores, hne, update_of_ne (Ne.symm hc)]
  | _ => rfl

/-- One operation of the original and the one the forward pass puts in its place. -/
theorem SameBut.after (h : SameBut d (current d n) s t)
    (hf : o.Fresh d) (k k' : List (Block S)) :
    SameBut d (current d (n + if o.stores d then 1 else 0)) (exec s k o)
      (exec t k' (o.atVersion d n)) := by
  obtain ⟨hd, hst, hcur, hoth⟩ := h
  cases o with
  | load dst c =>
    have hread : t.cells (redirect d (current d n) c) = s.cells c := by
      unfold redirect
      by_cases hc : c = .own d
      · rw [if_pos hc, hc, hcur]
      · rw [if_neg hc]
        exact hoth c fun hs => hc (hf hs)
    exact ⟨by simp only [exec, Op.atVersion, hread, hd], hst, hcur, hoth⟩
  | write c v =>
    by_cases hc : c = .own d
    · -- the store of the scalar: the next version holds the value from here on
      subst hc
      refine ⟨hd, ?_, ?_, ?_⟩
      · simp only [exec, Op.atVersion, redirect, if_true, current_scalar, hst]
        rfl
      · simp [exec, Op.atVersion, Op.stores, redirect, hd]
      · intro c hcs
        simp only [exec, Op.atVersion, redirect, if_true]
        rw [update_of_ne (fun he => hcs (by rw [he, current_scalar])),
          update_of_ne (fun he => hcs (by rw [he]; rfl))]
        exact hoth c hcs
    · have hcs : c.scalar ≠ d := fun hs => hc (hf hs)
      refine ⟨hd, ?_, ?_, ?_⟩
      · simp [exec, Op.atVersion, redirect, hc, hst]
      · simp only [exec, Op.atVersion, Op.stores, redirect, hc,
          decide_false, Bool.false_eq_true, if_false, Nat.add_zero]
        rw [update_of_ne (fun he => hcs (by rw [← he, current_scalar])),
          update_of_ne (fun he => hcs (by rw [← he]; rfl))]
        exact hcur
      · intro c' hc'
        simp only [exec, Op.atVersion, redirect, if_neg hc, hd]
        by_cases he : c' = c
        · rw [he, update_self, update_self]
        · rw [update_of_ne he, update_of_ne he]
          exact hoth c' hc'
  | freeze dst d' =>
    have hd' : d' ≠ d := hf
    have hread : t.cells (.own d') = s.cells (.own d') := hoth _ hd'
    refine ⟨?_, hst, ?_, ?_⟩
    · simp only [exec, Op.atVersion, hread, hd]
    · simp only [exec, Op.atVersion, Op.stores, Bool.false_eq_true, if_false,
        Nat.add_zero]
      rw [update_of_ne (fun he => hd' (by
          have := congrArg Cell.scalar he
          rw [current_scalar] at this
          exact this.symm)), update_of_ne (by simp)]
      exact hcur
    · intro c hc
      simp only [exec, Op.atVersion, hread]
      by_cases he : c = .frozen d' dst
      · rw [he, update_self, update_self]
      · rw [update_of_ne he, update_of_ne he]
        exact hoth c hc
  | extent dst operands f =>
    exact ⟨by simp only [exec, Op.atVersion, hd], hst, hcur, hoth⟩
  | allocmem extents => exact ⟨hd, hst, hcur, hoth⟩
  | freemem dead => exact ⟨hd, hst, hcur, hoth⟩
  | other f => exact ⟨by simp only [exec, Op.atVersion, hd], hst, hcur, hoth⟩

/-! ## The straight-line case -/

/-- The blocks left to run, in the original and in the rewritten function, after `n` stores. -/
inductive Corr (d total : ℕ) : ℕ → List (Block S) → List (Block S) → Prop
  | nil {n : ℕ} : Corr d total n [] []
  /-- a block without stores, left as it is -/
  | skip {n : ℕ} {x : Block S} {k k' : List (Block S)} : x.storeCount d = 0 →
      Corr d total n k k' → Corr d total n (x :: k) (x :: k')
  /-- a block with the stores in a branch below it -/
  | seek {x : Block S} {k : List (Block S)} : nestedBlock d total x = true →
      x.storeCount d ≤ total → (∀ y ∈ k, y.storeCount d = 0) →
      Corr d total 0 (x :: k) (versionNested d total x :: k)
  /-- the block with the stores at its top level -/
  | walk {n : ℕ} {x : Block S} {k : List (Block S)} : x.topStores d = x.storeCount d →
      (∀ y ∈ k, y.storeCount d = 0) → Corr d total n (x :: k) (versionBlock d n x :: k)

theorem Corr.of_noStores {d total n : ℕ}
    (h : ∀ x ∈ k, x.storeCount d = 0) : Corr d total n k k := by
  induction k with
  | nil => exact .nil
  | cons x k ih =>
    exact .skip (h x mem_cons_self) (ih fun y hy => h y (mem_cons_of_mem _ hy))

theorem storeCount_le_of_nestedBlock
    (h : nestedBlock d total b = true) : total ≤ b.storeCount d := by
  induction b with
  | done => simp [nestedBlock] at h
  | op o r ih =>
    have := ih h
    rw [storeCount_op]
    omega
  | branch c t e r iht ihe ihr =>
    simp only [nestedBlock, Bool.or_eq_true, decide_eq_true_eq] at h
    rw [storeCount_branch]
    have ht := topStores_le_storeCount d t
    have he := topStores_le_storeCount d e
    rcases h with ((h | h) | (h | h)) | h
    · omega
    · have := iht h; omega
    · omega
    · have := ihe h; omega
    · have := ihr h; omega
  | loop c body r _ ih =>
    have := ih h
    rw [storeCount_loop]
    omega

theorem storeCount_le_of_inOneBlock
    (h : b.topStores d = total ∨ nestedBlock d total b = true) : total ≤ b.storeCount d := by
  rcases h with h | h
  · rw [← h]
    exact topStores_le_storeCount d b
  · exact storeCount_le_of_nestedBlock h

/-- Where there is no store, the search changes nothing. -/
theorem versionNested_of_noStores (ht : 0 < total)
    (h : b.storeCount d = 0) : versionNested d total b = b := by
  induction b with
  | done => rfl
  | op o r ih =>
    rw [storeCount_op] at h
    rw [versionNested, ih (by omega)]
  | branch c t e r iht ihe ihr =>
    rw [storeCount_branch] at h
    have h1 := topStores_le_storeCount d t
    have h2 := topStores_le_storeCount d e
    rw [versionNested, if_neg (by omega), if_neg (by omega), iht (by omega), ihe (by omega),
      ihr (by omega)]
  | loop c body r _ ih =>
    rw [storeCount_loop] at h
    rw [versionNested, ih (by omega)]

/-- A block entered on the way to the stores, with what follows it. -/
theorem Corr.enter (htot : 0 < total) {a : Block S}
    (h : (a.topStores d = total ∨ nestedBlock d total a = true) ∨
      (a.storeCount d = 0 ∧ (nestedBlock d total r = true ∨ r.storeCount d = 0)))
    (hle : a.storeCount d + r.storeCount d ≤ total) (hk : ∀ y ∈ k, y.storeCount d = 0) :
    Corr d total 0 (a :: r :: k)
      ((if a.topStores d = total then versionBlock d 0 a else versionNested d total a) ::
        versionNested d total r :: k) := by
  rcases h with h | ⟨ha, hr⟩
  · have hge := storeCount_le_of_inOneBlock h
    have hr : r.storeCount d = 0 := by omega
    have hrk : ∀ y ∈ r :: k, y.storeCount d = 0 := by
      exact forall_mem_cons.2 ⟨hr, hk⟩
    rw [versionNested_of_noStores htot hr]
    by_cases ht : a.topStores d = total
    · rw [if_pos ht]
      exact .walk (by omega) hrk
    · rw [if_neg ht]
      exact .seek (h.resolve_left ht) (by omega) hrk
  · have htop := topStores_le_storeCount d a
    rw [if_neg (by omega), versionNested_of_noStores htot ha]
    apply Corr.skip ha
    rcases hr with hr | hr
    · exact .seek hr (by omega) hk
    · rw [versionNested_of_noStores htot hr]
      apply Corr.of_noStores
      exact forall_mem_cons.2 ⟨hr, hk⟩

/-- The step reads the scalar's first version after another one was written: a load the forward
pass leaves alone, or the return of a dummy argument. -/
def stale (dummies : List ℕ) (d : ℕ) (t : State S) : Bool :=
  decide (2 ≤ t.stored d) &&
    match t.todo with
    | [] => decide (d ∈ dummies)
    | .op (.load _ c) _ :: _ => decide (c = .own d)
    | _ => false

/-- The two runs are at corresponding places, and the scalar's value is in the current version. -/
structure Versioned (d total : ℕ) (s t : State S) : Prop where
  corr : Corr d total (s.stored d) s.todo t.todo
  same : SameBut d (current d (s.stored d)) s t
  fresh : ∀ x ∈ s.todo, x.Fresh d

theorem atVersion_of_notStored (hs : o.stores d = false)
    (hl : ∀ dst, o = .load dst (.own d) → n < 2) : o.atVersion d n = o := by
  cases o with
  | load dst c =>
    by_cases hc : c = .own d
    · subst hc
      simp [Op.atVersion, redirect, current_eq_own (hl dst rfl)]
    · simp [Op.atVersion, redirect, hc]
  | write c v =>
    have hc : c ≠ .own d := by simpa [Op.stores] using hs
    simp [Op.atVersion, redirect, hc]
  | _ => rfl

section
variable {d total : ℕ} {s t : State S}

variable {k k' : List (Block S)} {x : Block S}

/-- A step over an operation, whatever it becomes in the rewritten code. -/
theorem Versioned.step_exec (hsame : SameBut d (current d (s.stored d)) s t)
    {o : Op S} {r r' : Block S}
    (hs : s.todo = .op o r :: k) (ht : t.todo = .op (o.atVersion d (s.stored d)) r' :: k')
    (hfresh : ∀ x ∈ s.todo, x.Fresh d)
    (hcorr : Corr d total (s.stored d + if o.stores d then 1 else 0) (r :: k) (r' :: k')) :
    Versioned d total (step s) (step t) := by
  have hf := fresh_op (hfresh _ (hs ▸ mem_cons_self))
  rw [step_op hs, step_op ht]
  refine ⟨?_, ?_, ?_⟩
  · rw [stored_exec s _ o hf.1, exec_todo, exec_todo]
    exact hcorr
  · rw [stored_exec s _ o hf.1]
    exact hsame.after hf.1 _ _
  · rw [exec_todo]
    intro x hx
    rcases mem_cons.mp hx with rfl | hx
    · exact hf.2
    · exact hfresh x (hs ▸ mem_cons_of_mem _ hx)

/-- A step that only moves on to other blocks. -/
theorem Versioned.control (hsame : SameBut d (current d (s.stored d)) s t)
    {a b : List (Block S)} (hcorr : Corr d total (s.stored d) a b)
    (hfresh : ∀ x ∈ a, x.Fresh d) :
    Versioned d total { s with todo := a } { t with todo := b } :=
  ⟨hcorr, ⟨hsame.data, hsame.stored, hsame.value, hsame.others⟩, hfresh⟩

variable {k : List (Block S)}

/-- An operation that is neither a store of the scalar nor a stale load stays as it is. -/
theorem Versioned.unchanged (hsame : SameBut d (current d (s.stored d)) s t) {o : Op S}
    {r : Block S} (ht : t.todo = .op o r :: k) (hs : o.stores d = false)
    (hst : stale [] d t = false) : o.atVersion d (s.stored d) = o := by
  apply atVersion_of_notStored hs
  rintro dst rfl
  by_contra hn
  rw [← hsame.stored] at hn
  have h2 : 2 ≤ t.stored d := by omega
  simp [stale, ht, h2] at hst

theorem Versioned.step_skip (hsame : SameBut d (current d (s.stored d)) s t)
    (hs : s.todo = x :: k) (ht : t.todo = x :: k')
    (hx : x.storeCount d = 0) (hk : Corr d total (s.stored d) k k')
    (hfresh : ∀ y ∈ s.todo, y.Fresh d) (hst : stale [] d t = false) :
    Versioned d total (step s) (step t) := by
  have hfx := hfresh x (hs ▸ mem_cons_self)
  have hfk : ∀ y ∈ k, y.Fresh d := fun y hy => hfresh y (hs ▸ mem_cons_of_mem _ hy)
  cases x with
  | done =>
    rw [step_done hs, step_done ht]
    exact Versioned.control hsame hk hfk
  | op o r =>
    rw [storeCount_op] at hx
    have ho : o.stores d = false := by
      by_contra hn
      simp [hn] at hx
    have hat := Versioned.unchanged hsame ht ho hst
    refine Versioned.step_exec hsame hs (by rw [hat]; exact ht) hfresh ?_
    simp only [ho, Bool.false_eq_true, if_false, Nat.add_zero]
    exact .skip (by omega) hk
  | branch c th el r =>
    rw [storeCount_branch] at hx
    have hsel : (if c s.data = true then th else el).storeCount d = 0 := by split <;> omega
    obtain ⟨ht1, ht2, ht3⟩ := fresh_branch hfx
    rw [step_branch hs, step_branch ht, show c t.data = c s.data by rw [hsame.data]]
    refine Versioned.control hsame (.skip hsel (.skip (x := r) (by omega) hk)) ?_
    refine forall_mem_cons.2 ⟨?_, forall_mem_cons.2 ⟨ht3, hfk⟩⟩
    split <;> assumption
  | loop c body r =>
    have hx' := hx
    rw [storeCount_loop] at hx
    obtain ⟨hb, hr⟩ := fresh_loop hfx
    rw [step_loop hs, step_loop ht, show c t.data = c s.data by rw [hsame.data]]
    by_cases hc : c s.data = true
    · rw [if_pos hc, if_pos hc]
      refine Versioned.control hsame (.skip (x := body) (by omega) (.skip hx' hk)) ?_
      exact forall_mem_cons.2 ⟨hb, fun y hy => hfresh y (hs ▸ hy)⟩
    · rw [if_neg hc, if_neg hc]
      refine Versioned.control hsame (.skip (x := r) (by omega) hk) ?_
      exact forall_mem_cons.2 ⟨hr, hfk⟩

theorem Versioned.step_seek (hsame : SameBut d (current d (s.stored d)) s t)
    (hs : s.todo = x :: k) (ht : t.todo = versionNested d total x :: k)
    (hn : s.stored d = 0) (hx : nestedBlock d total x = true) (hle : x.storeCount d ≤ total)
    (hk : ∀ y ∈ k, y.storeCount d = 0) (htot : 0 < total)
    (hfresh : ∀ y ∈ s.todo, y.Fresh d) (hst : stale [] d t = false) :
    Versioned d total (step s) (step t) := by
  have hfx := hfresh x (hs ▸ mem_cons_self)
  have hfk : ∀ y ∈ k, y.Fresh d := fun y hy => hfresh y (hs ▸ mem_cons_of_mem _ hy)
  -- all the stores are further in or further on, so no version is made yet
  cases x with
  | done => simp [nestedBlock] at hx
  | op o r =>
    rw [storeCount_op] at hle
    have hge := storeCount_le_of_nestedBlock (b := r) hx
    have ho : o.stores d = false := by
      by_contra h
      rw [if_pos (by simpa using h)] at hle
      omega
    have hat := Versioned.unchanged hsame ht ho hst
    refine Versioned.step_exec hsame hs (by rw [hat]; exact ht) hfresh ?_
    simp only [ho, Bool.false_eq_true, if_false, Nat.add_zero, hn]
    exact .seek hx (by omega) hk
  | branch c th el r =>
    rw [storeCount_branch] at hle
    obtain ⟨hft, hfe, hfr⟩ := fresh_branch hfx
    have hfall : ∀ a : Block S, a.Fresh d → ∀ y ∈ a :: r :: k, y.Fresh d := by
      exact fun a ha => forall_mem_cons.2 ⟨ha, forall_mem_cons.2 ⟨hfr, hfk⟩⟩
    rw [step_branch hs, step_branch ht, show c t.data = c s.data by rw [hsame.data]]
    simp only [nestedBlock, Bool.or_eq_true, decide_eq_true_eq] at hx
    have hth : th.topStores d = total ∨ nestedBlock d total th = true → total ≤ th.storeCount d :=
      storeCount_le_of_inOneBlock
    have hel : el.topStores d = total ∨ nestedBlock d total el = true → total ≤ el.storeCount d :=
      storeCount_le_of_inOneBlock
    have hr : nestedBlock d total r = true → total ≤ r.storeCount d :=
      storeCount_le_of_nestedBlock
    by_cases hc : c s.data = true
    · rw [if_pos hc, if_pos hc]
      refine Versioned.control hsame ?_ (hfall th hft)
      rw [hn]
      rcases hx with (h | h) | h
      · exact Corr.enter htot (.inl h) (by omega) hk
      · exact Corr.enter htot (.inr ⟨by have := hel h; omega, .inr (by have := hel h; omega)⟩)
          (by omega) hk
      · exact Corr.enter htot (.inr ⟨by have := hr h; omega, .inl h⟩) (by omega) hk
    · rw [if_neg hc, if_neg hc]
      refine Versioned.control hsame ?_ (hfall el hfe)
      rw [hn]
      rcases hx with (h | h) | h
      · exact Corr.enter htot (.inr ⟨by have := hth h; omega, .inr (by have := hth h; omega)⟩)
          (by omega) hk
      · exact Corr.enter htot (.inl h) (by omega) hk
      · exact Corr.enter htot (.inr ⟨by have := hr h; omega, .inl h⟩) (by omega) hk
  | loop c body r =>
    have hle' := hle
    rw [storeCount_loop] at hle
    have hge := storeCount_le_of_nestedBlock (b := r) hx
    obtain ⟨hfb, hfr⟩ := fresh_loop hfx
    rw [step_loop hs, step_loop ht, show c t.data = c s.data by rw [hsame.data]]
    by_cases hc : c s.data = true
    · rw [if_pos hc, if_pos hc]
      refine Versioned.control hsame ?_ ?_
      · rw [hn]
        exact .skip (by omega) (.seek (x := .loop c body r) hx hle' hk)
      · exact forall_mem_cons.2 ⟨hfb, fun y hy => hfresh y (hs ▸ hy)⟩
    · rw [if_neg hc, if_neg hc]
      refine Versioned.control hsame ?_ ?_
      · rw [hn]
        exact .seek hx (by omega) hk
      · exact forall_mem_cons.2 ⟨hfr, hfk⟩

theorem Versioned.step_walk (hsame : SameBut d (current d (s.stored d)) s t)
    (hs : s.todo = x :: k)
    (ht : t.todo = versionBlock d (s.stored d) x :: k)
    (hx : x.topStores d = x.storeCount d) (hk : ∀ y ∈ k, y.storeCount d = 0)
    (hfresh : ∀ y ∈ s.todo, y.Fresh d) : Versioned d total (step s) (step t) := by
  have hfx := hfresh x (hs ▸ mem_cons_self)
  have hfk : ∀ y ∈ k, y.Fresh d := fun y hy => hfresh y (hs ▸ mem_cons_of_mem _ hy)
  cases x with
  | done =>
    rw [step_done hs, step_done (k := k) ht]
    exact Versioned.control hsame (Corr.of_noStores hk) hfk
  | op o r =>
    rw [storeCount_op, Block.topStores] at hx
    exact Versioned.step_exec hsame hs ht hfresh (.walk (by omega) hk)
  | branch c th el r =>
    rw [storeCount_branch, Block.topStores] at hx
    have hle := topStores_le_storeCount d r
    obtain ⟨hft, hfe, hfr⟩ := fresh_branch hfx
    rw [step_branch hs, step_branch (k := k) ht, show c t.data = c s.data by rw [hsame.data]]
    have hsel : (if c s.data = true then th else el).storeCount d = 0 := by split <;> omega
    refine Versioned.control hsame (.skip hsel (.walk (x := r) (by omega) hk)) ?_
    refine forall_mem_cons.2 ⟨?_, forall_mem_cons.2 ⟨hfr, hfk⟩⟩
    split <;> assumption
  | loop c body r =>
    have hx' := hx
    rw [storeCount_loop, Block.topStores] at hx
    have hle := topStores_le_storeCount d r
    obtain ⟨hfb, hfr⟩ := fresh_loop hfx
    rw [step_loop hs, step_loop (k := k) ht, show c t.data = c s.data by rw [hsame.data]]
    by_cases hc : c s.data = true
    · rw [if_pos hc, if_pos hc]
      refine Versioned.control hsame
        (.skip (x := body) (by omega) (.walk (x := .loop c body r) hx' hk)) ?_
      exact forall_mem_cons.2 ⟨hfb, fun y hy => hfresh y (hs ▸ hy)⟩
    · rw [if_neg hc, if_neg hc]
      refine Versioned.control hsame (.walk (x := r) (by omega) hk) ?_
      exact forall_mem_cons.2 ⟨hfr, hfk⟩

/-- **One step of the straight-line case**: unless it is stale, the two runs stay together. -/
theorem Versioned.next (h : Versioned d total s t) (htot : 0 < total)
    (hst : stale [] d t = false) : Versioned d total (step s) (step t) := by
  obtain ⟨hcorr, hsame, hfresh⟩ := h
  generalize hs : s.todo = a at hcorr
  generalize ht : t.todo = b at hcorr
  generalize hn : s.stored d = n at hcorr
  cases hcorr with
  | nil =>
    rw [step_nil hs, step_nil ht]
    exact ⟨by rw [hs, ht]; exact .nil, hsame, hfresh⟩
  | skip hx hk => exact Versioned.step_skip hsame hs ht hx (hn ▸ hk) hfresh hst
  | seek hx hle hk => exact Versioned.step_seek hsame hs ht hn hx hle hk htot hfresh hst
  | walk hx hk =>
    subst hn
    exact Versioned.step_walk hsame hs ht hx hk hfresh

end

theorem Op.read_atVersion (h : SameBut d (current d n) s t)
    (hf : o.Fresh d) : (o.atVersion d n).read t.cells = o.read s.cells := by
  cases o with
  | load dst c =>
    by_cases hc : c = .own d
    · simp [Op.atVersion, Op.read, redirect, hc, h.value]
    · have hcs : c.scalar ≠ d := fun hs => hc (hf hs)
      simp [Op.atVersion, Op.read, redirect, hc, h.others c hcs]
  | freeze dst d' =>
    have hd' : d' ≠ d := hf
    simp [Op.atVersion, Op.read, h.others (.own d') hd']
  | _ => rfl

theorem nextRead_op {s : State S}
    (h : s.todo = .op o r :: k) : nextRead s = o.read s.cells := by
  simp only [nextRead, h]

theorem Versioned.nextRead_eq (h : Versioned d total s t)
    (hst : stale [] d t = false) : nextRead t = nextRead s := by
  obtain ⟨hcorr, hsame, hfresh⟩ := h
  -- the operations at the head, where they are the same or one put in the other's place
  have hop : ∀ (o : Op S) (r r' : Block S) (k k' : List (Block S)), s.todo = .op o r :: k →
      t.todo = .op (o.atVersion d (s.stored d)) r' :: k' → nextRead t = nextRead s := by
    intro o r r' k k' hs ht
    rw [nextRead_op hs, nextRead_op ht]
    exact Op.read_atVersion hsame (fresh_op (hfresh _ (hs ▸ mem_cons_self))).1
  have hkeep : ∀ (o : Op S) (r r' : Block S) (k k' : List (Block S)), s.todo = .op o r :: k →
      t.todo = .op o r' :: k' → o.stores d = false → nextRead t = nextRead s := by
    intro o r r' k k' hs ht ho
    exact hop o r r' k k' hs (by rw [Versioned.unchanged hsame ht ho hst]; exact ht)
  generalize hs : s.todo = a at hcorr
  generalize ht : t.todo = b at hcorr
  generalize hn : s.stored d = n at hcorr
  cases hcorr with
  | nil => simp only [nextRead, hs, ht]
  | @skip _ x k k' hx hk =>
    cases x with
    | op o r =>
      rw [storeCount_op] at hx
      refine hkeep o r r k k' hs ht ?_
      by_contra ho
      simp [ho] at hx
    | _ => simp only [nextRead, hs, ht]
  | @seek x k hx hle hk =>
    cases x with
    | op o r =>
      rw [storeCount_op] at hle
      have hge := storeCount_le_of_nestedBlock (b := r) hx
      refine hkeep o r _ k k hs ht ?_
      by_contra ho
      rw [if_pos (by simpa using ho)] at hle
      omega
    | _ => simp only [nextRead, hs, ht, versionNested]
  | @walk _ x k hx hk =>
    subst hn
    cases x with
    | op o r => exact hop o r _ k k hs ht
    | _ => simp only [nextRead, hs, ht, versionBlock]

/-! ## The loop case -/

/-- The two runs are at the same place, and only snapshots differ. -/
structure Frozen (ops : List (Op S)) (d : ℕ) (s t : State S) : Prop where
  todo : t.todo = s.todo.map (freezeExtents ops d)
  data : t.data = s.data
  cells : ∀ c, (∀ dst, c ≠ .frozen d dst) → t.cells c = s.cells c
  fresh : ∀ x ∈ s.todo, x.Fresh d

theorem Op.Fresh.ne_frozen {c : Cell} (h : c.scalar = d → c = .own d) (dst : ℕ) :
    c ≠ .frozen d dst := by
  rintro rfl
  exact absurd (h rfl) (by simp)

/-- An operation and what `freezeExtents` makes of it. -/
theorem frozen_after (ops : List (Op S)) (hd : t.data = s.data)
    (hc : ∀ c, (∀ dst, c ≠ .frozen d dst) → t.cells c = s.cells c) (hf : o.Fresh d)
    (k k' : List (Block S)) :
    (exec t k' (o.freezeExtent ops d)).data = (exec s k o).data ∧
      ∀ c, (∀ dst, c ≠ .frozen d dst) →
        (exec t k' (o.freezeExtent ops d)).cells c = (exec s k o).cells c := by
  cases o with
  | load dst c =>
    have hread : t.cells c = s.cells c := hc c (Op.Fresh.ne_frozen hf)
    by_cases he : (Op.load dst c : Op S).extentLoad ops d = true
    · obtain rfl : c = .own d := by
        simp only [Op.extentLoad, Bool.and_eq_true, decide_eq_true_eq] at he
        exact he.1
      simp only [Op.freezeExtent, he, if_true, exec, hread, hd]
      refine ⟨trivial, ?_⟩
      intro c hcf
      rw [update_of_ne (hcf dst)]
      exact hc c hcf
    · simp only [Op.freezeExtent, he, Bool.false_eq_true, if_false, exec, hread, hd]
      exact ⟨trivial, hc⟩
  | write c v =>
    refine ⟨hd, ?_⟩
    intro c' hcf
    simp only [Op.freezeExtent, exec, hd]
    by_cases he : c' = c
    · rw [he, update_self, update_self]
    · rw [update_of_ne he, update_of_ne he]
      exact hc c' hcf
  | freeze dst d' =>
    have hread : t.cells (.own d') = s.cells (.own d') := hc _ (by simp)
    refine ⟨by simp only [Op.freezeExtent, exec, hd, hread], ?_⟩
    intro c' hcf
    simp only [Op.freezeExtent, exec, hread]
    by_cases he : c' = .frozen d' dst
    · rw [he, update_self, update_self]
    · rw [update_of_ne he, update_of_ne he]
      exact hc c' hcf
  | extent dst operands f => exact ⟨by simp only [Op.freezeExtent, exec, hd], hc⟩
  | allocmem extents => exact ⟨hd, hc⟩
  | freemem dead => exact ⟨hd, hc⟩
  | other f => exact ⟨by simp only [Op.freezeExtent, exec, hd], hc⟩

/-- **One step of the loop case**: the two runs stay together. -/
theorem Frozen.next (h : Frozen ops d s t) :
    Frozen ops d (step s) (step t) := by
  obtain ⟨htodo, hd, hc, hfresh⟩ := h
  cases hs : s.todo with
  | nil =>
    rw [hs, map_nil] at htodo
    rw [step_nil hs, step_nil htodo]
    exact ⟨by rw [hs, htodo]; rfl, hd, hc, hfresh⟩
  | cons x k =>
    rw [hs, map_cons] at htodo
    have hfx := hfresh x (hs ▸ mem_cons_self)
    have hfk : ∀ y ∈ k, y.Fresh d := fun y hy => hfresh y (hs ▸ mem_cons_of_mem _ hy)
    cases x with
    | done =>
      rw [step_done hs, step_done htodo]
      exact ⟨rfl, hd, hc, hfk⟩
    | op o r =>
      obtain ⟨hfo, hfr⟩ := fresh_op hfx
      rw [step_op hs, step_op htodo]
      obtain ⟨hd', hc'⟩ := frozen_after ops hd hc hfo (r :: k)
        (freezeExtents ops d r :: k.map (freezeExtents ops d))
      refine ⟨by rw [exec_todo, exec_todo]; rfl, hd', hc', ?_⟩
      rw [exec_todo]
      exact forall_mem_cons.2 ⟨hfr, hfk⟩
    | branch c th el r =>
      obtain ⟨hft, hfe, hfr⟩ := fresh_branch hfx
      rw [step_branch hs, step_branch htodo, show c t.data = c s.data by rw [hd]]
      refine ⟨?_, hd, hc, ?_⟩
      · simp only [map_cons]
        split <;> rfl
      · refine forall_mem_cons.2 ⟨?_, forall_mem_cons.2 ⟨hfr, hfk⟩⟩
        split <;> assumption
    | loop c body r =>
      obtain ⟨hfb, hfr⟩ := fresh_loop hfx
      rw [step_loop hs, step_loop htodo, show c t.data = c s.data by rw [hd]]
      refine ⟨?_, hd, hc, ?_⟩
      · split <;> rfl
      · intro y hy
        dsimp only at hy
        split at hy
        · rcases mem_cons.mp hy with rfl | hy
          · exact hfb
          · exact hfresh y (hs ▸ hy)
        · rcases mem_cons.mp hy with rfl | hy
          · exact hfr
          · exact hfk y hy

theorem Frozen.nextRead_eq (h : Frozen ops d s t) :
    nextRead t = nextRead s := by
  obtain ⟨htodo, hd, hc, hfresh⟩ := h
  cases hs : s.todo with
  | nil =>
    rw [hs] at htodo
    simp [nextRead, hs, htodo]
  | cons x k =>
    rw [hs, map_cons] at htodo
    cases x with
    | op o r =>
      have hfo := (fresh_op (hfresh _ (hs ▸ mem_cons_self))).1
      rw [nextRead_op hs, nextRead_op htodo]
      cases o with
      | load dst c =>
        have hread := hc c (Op.Fresh.ne_frozen hfo)
        by_cases he : (Op.load dst c : Op S).extentLoad ops d = true
        · obtain rfl : c = .own d := by
            simp only [Op.extentLoad, Bool.and_eq_true, decide_eq_true_eq] at he
            exact he.1
          simp only [Op.freezeExtent, he, if_true, Op.read, hread]
        · simp only [Op.freezeExtent, he, Bool.false_eq_true, if_false, Op.read, hread]
      | freeze dst d' => simp only [Op.freezeExtent, Op.read, hc (.own d') (by simp)]
      | _ => rfl
    | _ => simp only [nextRead, hs, htodo, freezeExtents]

end ShapeScalars
