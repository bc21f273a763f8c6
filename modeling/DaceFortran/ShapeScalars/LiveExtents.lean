/-
# The extents of live arrays

Runs of the rewritten function.  Every cell an SSA value comes from was loaded by an
operation of the code; versions that were read are never written again; so the cell an
extent was loaded from changes only by a store to a declare's own cell or by a snapshot
taken again.  Both are steps of the function's own path.
-/
import DaceFortran.ShapeScalars.ExtentPaths

open Function List

namespace ShapeScalars

variable {S : Type}

/-- The cell each extent of a live array was loaded from holds the value it had then. -/
def ExtentsHeld (s : State S) : Prop := ∀ e ∈ s.live, s.cells e.cell = e.value

/-! ## The code after the pass -/

variable {b : Block S} {ds : List ℕ}

theorem ordered_pass (hnd : ds.Nodup) (h : Ordered b)
    (hf : ∀ d ∈ ds, b.Fresh d) : Ordered (versionShapeScalars ds b) := by
  induction ds generalizing b with
  | nil => exact h
  | cons d ds ih =>
    obtain ⟨hd, hds⟩ := nodup_cons.mp hnd
    refine ih hds (ordered_versionOne h (hf d mem_cons_self)) ?_
    intro d' hd'
    refine versionOne_fresh ?_ (hf d' (mem_cons_of_mem _ hd'))
    rintro rfl
    exact hd hd'

theorem feedsAllocation_pass (ds : List ℕ) (b : Block S) (v : ℕ) :
    FeedsAllocation (versionShapeScalars ds b).ops v ↔ FeedsAllocation b.ops v := by
  induction ds generalizing b with
  | nil => exact Iff.rfl
  | cons d ds ih => exact (ih (versionOne d b)).trans (feedsAllocation_versionOne d b v)

theorem loads_pass {c : Cell} (h : c.scalar ∉ ds) (b : Block S) (dst : ℕ) :
    (∃ o ∈ (versionShapeScalars ds b).ops, o.Loads dst c) ↔ ∃ o ∈ b.ops, o.Loads dst c := by
  induction ds generalizing b with
  | nil => exact Iff.rfl
  | cons d ds ih =>
    rw [mem_cons, not_or] at h
    exact (ih h.2 (versionOne d b)).trans (loads_versionOne h.1 b dst)

/-- What is still loaded from a frozen declare is one of its loads that the forward walk does not
follow to an allocation. -/
theorem frozen_loads (hnd : ds.Nodup) {d : ℕ}
    (hd : decisionAt ds b d = .frozen) {dst : ℕ}
    (h : ∃ o ∈ (versionShapeScalars ds b).ops, o.Loads dst (.own d)) :
    (∃ o ∈ b.ops, o.Loads dst (.own d)) ∧ feedsAllocateExtent b.ops dst = false := by
  induction ds generalizing b with
  | nil => cases hd
  | cons d' ds ih =>
    obtain ⟨hd', hds⟩ := nodup_cons.mp hnd
    rw [decisionAt] at hd
    split at hd
    · rename_i heq
      subst heq
      have hl := (loads_pass (c := .own d) hd' (versionOne d b) dst).mp h
      unfold versionOne at hl
      rw [hd] at hl
      exact loads_freezeExtents hl
    · rename_i hne
      obtain ⟨hl, hfeeds⟩ := ih hds hd h
      rw [feeds_versionOne] at hfeeds
      exact ⟨(loads_versionOne (c := .own d) hne b dst).mp hl, hfeeds⟩

/-- Only the first store to a versioned scalar is one to its declare, whatever else is rewritten. -/
theorem firstStore_pass (hnd : ds.Nodup) {d : ℕ} (hf : ∀ x ∈ ds, b.Fresh x)
    (hd : decisionAt ds b d = .versioned) :
    (versionShapeScalars ds b).Guarded (Op.StoresTo d) (Op.Writes (.own d)) := by
  -- the rewriting of the other declares
  have hothers : ∀ (ds : List ℕ), d ∉ ds →
    ∀ b : Block S, b.Guarded (Op.StoresTo d) (Op.Writes (.own d)) →
      (versionShapeScalars ds b).Guarded (Op.StoresTo d) (Op.Writes (.own d)) := by
    intro ds
    induction ds with
    | nil => exact fun _ _ h => h
    | cons d' ds ih =>
      intro hnot b hb
      rw [mem_cons, not_or] at hnot
      have hstores := covers_storesTo (S := S) d' d
      have hwrites := covers_sameCell (S := S) (c := .own d) (d := d') hnot.1
      refine ih hnot.2 (versionOne d' b)
        ((versionOne_related ⟨fun o => ?_, fun o n => ?_, fun o ops => ?_⟩ b).guarded hb)
      · exact ⟨hstores.same o, (hwrites.same o).2⟩
      · exact ⟨hstores.version o n, (hwrites.version o n).2⟩
      · exact ⟨hstores.freeze o ops, (hwrites.freeze o ops).2⟩
  induction ds generalizing b with
  | nil => cases hd
  | cons d' ds ih =>
    obtain ⟨hd', hds⟩ := nodup_cons.mp hnd
    rw [decisionAt] at hd
    split at hd
    · rename_i heq
      subst heq
      exact hothers ds hd' (versionOne d b) (firstStore_versionOne (hf d mem_cons_self) hd)
    · refine ih hds (fun x hx => versionOne_fresh ?_ (hf x (mem_cons_of_mem d' hx))) hd
      rintro rfl
      exact hd' hx

/-! ## Blocks left to run -/

/-- No operation of the second kind can follow one of the first in the blocks left to run. -/
def StackGuarded (A B : Op S → Prop) : List (Block S) → Prop
  | [] => True
  | x :: k => x.Guarded A B ∧ (x.Has A → ∀ y ∈ k, ¬ y.Has B) ∧ StackGuarded A B k

/-- The step neither stores to a declare's own cell nor takes a snapshot while an array allocated
from that cell is live.  The stores of a frozen declare do not matter. -/
def Spares (dec : ℕ → Decision) (s : State S) : Prop :=
  match s.todo with
  | .op (.write (.own d) _) _ :: _ => dec d = .frozen ∨ ∀ e ∈ s.live, e.cell ≠ .own d
  | .op (.freeze dst d) _ :: _ => ∀ e ∈ s.live, e.cell ≠ .frozen d dst
  | _ => True

/-- The invariant of a run of the code `p`. -/
structure Inv (p : Block S) (s : State S) : Prop where
  /-- extents are held -/
  held : ExtentsHeld s
  /-- what is left to run is code of the function -/
  code : ∀ x ∈ s.todo, ∀ o ∈ x.ops, o ∈ p.ops
  /-- a value comes from the cells its loads name -/
  source : ∀ v, ∀ c ∈ s.source v, ∃ dst, (∃ o ∈ p.ops, o.Loads dst c) ∧ Derives p.ops dst v
  /-- so does the extent of an array -/
  live : ∀ e ∈ s.live, ∃ dst, (∃ o ∈ p.ops, o.Loads dst e.cell) ∧ FeedsAllocation p.ops dst
  /-- what cannot follow in the code does not follow in what is left to run -/
  order : ∀ A B, p.Guarded A B → StackGuarded A B s.todo
  /-- a version that was read is not written again -/
  settled : ∀ d k, ((∃ v, Cell.version d k ∈ s.source v) ∨
    ∃ e ∈ s.live, e.cell = .version d k) → ∀ x ∈ s.todo, ¬ x.Has (Op.Writes (.version d k))
  /-- nor is a versioned declare, once the scalar has been stored to -/
  first : ∀ d, p.Guarded (Op.StoresTo d) (Op.Writes (.own d)) → s.stored d ≠ 0 →
    ∀ x ∈ s.todo, ¬ x.Has (Op.Writes (.own d))

section
variable {p : Block S} {s : State S}

/-- A step that only moves on to other blocks. -/
theorem Inv.control (h : Inv p s) {a : List (Block S)}
    (hcode : ∀ x ∈ a, ∀ o ∈ x.ops, ∃ y ∈ s.todo, o ∈ y.ops)
    (horder : ∀ A B, p.Guarded A B → StackGuarded A B a) : Inv p { s with todo := a } := by
  have hhas : ∀ {B : Op S → Prop} {x}, x ∈ a → x.Has B → ∃ y ∈ s.todo, y.Has B := by
    rintro B x hx ⟨o, ho, hw⟩
    obtain ⟨y, hy, hoy⟩ := hcode x hx o ho
    exact ⟨y, hy, o, hoy, hw⟩
  refine ⟨h.held, ?_, h.source, h.live, horder, ?_, ?_⟩
  · intro x hx o ho
    obtain ⟨y, hy, hoy⟩ := hcode x hx o ho
    exact h.code y hy o hoy
  · intro d k hr x hx hw
    obtain ⟨y, hy, hw⟩ := hhas hx hw
    exact h.settled d k hr y hy hw
  · intro d hg hs x hx hw
    obtain ⟨y, hy, hw⟩ := hhas hx hw
    exact h.first d hg hs y hy hw

variable {k : List (Block S)} {o : Op S} {r : Block S}

theorem Inv.step_done (h : Inv p s) (hs : s.todo = .done :: k) :
    Inv p (step s) := by
  rw [ShapeScalars.step_done hs]
  refine h.control ?_ ?_
  · intro x hx o ho
    exact ⟨x, hs ▸ mem_cons_of_mem _ hx, ho⟩
  · intro A B hg
    have := h.order A B hg
    rw [hs] at this
    exact this.2.2

theorem Inv.step_branch (h : Inv p s) {c : Data S → Bool} {t e r : Block S}
    (hs : s.todo = .branch c t e r :: k) : Inv p (step s) := by
  rw [ShapeScalars.step_branch hs]
  refine h.control ?_ ?_
  · intro x hx o ho
    rcases mem_cons.mp hx with rfl | hx
    · refine ⟨_, hs ▸ mem_cons_self, ?_⟩
      simp only [Block.ops, mem_append]
      split at ho <;> tauto
    · rcases mem_cons.mp hx with rfl | hx
      · exact ⟨_, hs ▸ mem_cons_self, mem_append_right _ ho⟩
      · exact ⟨x, hs ▸ mem_cons_of_mem _ hx, ho⟩
  · intro A B hguard
    have hord := h.order A B hguard
    rw [hs] at hord
    obtain ⟨⟨hg, ht, he, hr⟩, hout, hk⟩ := hord
    rw [has_branch] at hout
    refine ⟨by split <;> assumption, ?_, hr, fun hrd => hout (.inr hrd), hk⟩
    intro hrd y hy
    have hte : t.Has A ∨ e.Has A := by
      split at hrd
      · exact .inl hrd
      · exact .inr hrd
    rcases mem_cons.mp hy with rfl | hy
    · exact hg hte
    · exact hout (.inl hte) y hy

theorem Inv.step_loop (h : Inv p s) {c : Data S → Bool} {body r : Block S}
    (hs : s.todo = .loop c body r :: k) : Inv p (step s) := by
  rw [ShapeScalars.step_loop hs]
  have hord := h.order
  simp only [hs] at hord
  refine h.control ?_ ?_
  · intro x hx o ho
    split at hx
    · rcases mem_cons.mp hx with rfl | hx
      · exact ⟨_, hs ▸ mem_cons_self, mem_append_left _ ho⟩
      · exact ⟨x, hs ▸ hx, ho⟩
    · rcases mem_cons.mp hx with rfl | hx
      · exact ⟨_, hs ▸ mem_cons_self, mem_append_right _ ho⟩
      · exact ⟨x, hs ▸ mem_cons_of_mem _ hx, ho⟩
  · intro A B hguard
    obtain ⟨⟨hg, hb, hr⟩, hout, hk⟩ := hord A B hguard
    rw [has_loop] at hout
    split
    · -- the loop is left to run after its body
      refine ⟨hb, ?_, hord A B hguard⟩
      intro hrd y hy
      rcases mem_cons.mp hy with rfl | hy
      · rw [has_loop, not_or]
        exact hg hrd
      · exact hout (.inl hrd) y hy
    · exact ⟨hr, fun hrd => hout (.inr hrd), hk⟩

/-- What a step over an operation leaves to run. -/
theorem code_op
    (hs : s.todo = .op o r :: k) : ∀ x ∈ r :: k, ∀ o' ∈ x.ops, ∃ y ∈ s.todo, o' ∈ y.ops := by
  intro x hx o' ho
  rcases mem_cons.mp hx with rfl | hx
  · exact ⟨.op o x, hs ▸ mem_cons_self, mem_cons_of_mem (a := o') o ho⟩
  · exact ⟨x, hs ▸ mem_cons_of_mem _ hx, ho⟩

theorem Inv.order_op (h : Inv p s)
    (hs : s.todo = .op o r :: k) (A B : Op S → Prop) (hg : p.Guarded A B) :
    StackGuarded A B (r :: k) := by
  have hord := h.order A B hg
  rw [hs] at hord
  obtain ⟨⟨-, hr⟩, hout, hk⟩ := hord
  exact ⟨hr, fun hrd => hout (has_op.mpr (.inr hrd)), hk⟩

/-- The operation about to run is one of the code. -/
theorem Inv.head_mem (h : Inv p s)
    (hs : s.todo = .op o r :: k) : o ∈ p.ops :=
  h.code _ (hs ▸ mem_cons_self) o mem_cons_self

/-- After the operation there is none left that cannot follow it. -/
theorem Inv.not_has_of_head (h : Inv p s) {A B : Op S → Prop} (hguard : p.Guarded A B)
    (hs : s.todo = .op o r :: k) (ho : A o) : ∀ x ∈ r :: k, ¬ x.Has B := by
  have hord := h.order A B hguard
  rw [hs] at hord
  obtain ⟨⟨hg, -⟩, hout, -⟩ := hord
  intro x hx
  rcases mem_cons.mp hx with rfl | hx
  · exact hg ho
  · exact hout (has_op.mpr (.inl ho)) x hx

/-- What is not left to run before the operation is not left behind it. -/
theorem not_has_op {B : Op S → Prop} (hs : s.todo = .op o r :: k) (h : ∀ x ∈ s.todo, ¬ x.Has B) :
    ∀ x ∈ r :: k, ¬ x.Has B := by
  rintro x hx ⟨o', ho', hw⟩
  obtain ⟨y, hy, hoy⟩ := code_op hs x hx o' ho'
  exact h y hy ⟨o', hoy, hw⟩

theorem Inv.settled_op (h : Inv p s)
    (hs : s.todo = .op o r :: k) {d n : ℕ}
    (hr : (∃ v, Cell.version d n ∈ s.source v) ∨ ∃ e ∈ s.live, e.cell = .version d n) :
    ∀ x ∈ r :: k, ¬ x.Has (Op.Writes (.version d n)) := not_has_op hs (h.settled d n hr)

variable {dec : ℕ → Decision}

/-- A cell an array was allocated from is not written by a step that spares it. -/
theorem Inv.not_writes_live (h : Inv p s) (hord : Ordered p)
    (hfro : ∀ d, dec d = .frozen → ∀ dst, (∃ o ∈ p.ops, o.Loads dst (.own d)) →
      ¬ FeedsAllocation p.ops dst)
    (hs : s.todo = .op o r :: k)
    (how : Spares dec s) : ∀ e ∈ s.live, ¬ o.Writes e.cell := by
  intro e he hw
  unfold Spares at how
  rw [hs] at how
  cases o with
  | write c v =>
    have hc : c = e.cell := hw
    cases hcell : e.cell with
    | own d =>
      rw [hcell] at hc
      subst hc
      rcases how with hd | hspares
      · obtain ⟨dst, hl, hfeeds⟩ := h.live e he
        rw [hcell] at hl
        exact hfro d hd dst hl hfeeds
      · exact hspares e he hcell
    | version d n =>
      have := h.settled d n (.inr ⟨e, he, hcell⟩) _ (hs ▸ mem_cons_self)
      exact this ⟨_, mem_cons_self, by rw [hc, hcell]; rfl⟩
    | frozen d dst =>
      rw [hcell] at hc
      subst hc
      exact hord.snapshots ⟨_, h.head_mem hs, trivial⟩
  | freeze dst d => exact how e he hw
  | _ => exact hw

theorem Inv.code_next (h : Inv p s)
    (hs : s.todo = .op o r :: k) : ∀ x ∈ r :: k, ∀ o' ∈ x.ops, o' ∈ p.ops := by
  intro x hx o' ho
  obtain ⟨y, hy, hoy⟩ := code_op hs x hx o' ho
  exact h.code y hy o' hoy

/-- **One operation** that does not overwrite an extent keeps the invariant. -/
theorem Inv.step_op (h : Inv p s) (hord : Ordered p)
    (hfro : ∀ d, dec d = .frozen → ∀ dst, (∃ o ∈ p.ops, o.Loads dst (.own d)) →
      ¬ FeedsAllocation p.ops dst)
    (hs : s.todo = .op o r :: k)
    (how : Spares dec s) : Inv p (step s) := by
  rw [ShapeScalars.step_op hs]
  have hkeep := h.not_writes_live hord hfro hs how
  have hmem := h.head_mem hs
  have hfirst : ∀ d, p.Guarded (Op.StoresTo d) (Op.Writes (.own d)) → s.stored d ≠ 0 →
      ∀ x ∈ r :: k, ¬ x.Has (Op.Writes (.own d)) := fun d hg hst => not_has_op hs (h.first d hg hst)
  cases o with
  | load dst c =>
    -- no cell changes; `dst` comes from this load alone
    refine ⟨h.held, h.code_next hs, ?_, h.live, h.order_op hs, ?_, hfirst⟩
    · intro v c' hc'
      by_cases hv : v = dst
      · subst hv
        simp only [exec, update_self, mem_singleton] at hc'
        exact ⟨v, ⟨_, hmem, rfl, hc'.symm⟩, .refl⟩
      · simp only [exec, update_of_ne hv] at hc'
        exact h.source v c' hc'
    · intro d n hr
      by_cases hc : c = .version d n
      · exact h.not_has_of_head (hord.guarded d n) hs hc
      · refine h.settled_op hs ?_
        rcases hr with ⟨v, hv⟩ | hr
        · left
          by_cases hvd : v = dst
          · simp only [exec, hvd, update_self, mem_singleton] at hv
            exact absurd hv.symm hc
          · simp only [exec, update_of_ne hvd] at hv
            exact ⟨v, hv⟩
        · exact .inr hr
  | write c v =>
    -- an extent that is live is in another cell
    refine ⟨?_, h.code_next hs, h.source, h.live, h.order_op hs,
      fun d n hr => h.settled_op hs hr, ?_⟩
    · intro e he
      have hne : e.cell ≠ c := fun hc => hkeep e he hc.symm
      show update s.cells c (s.data.env v) e.cell = e.value
      rw [update_of_ne hne]
      exact h.held e he
    · intro d hg hst
      by_cases hd : c.scalar = d
      · exact h.not_has_of_head hg hs hd
      · refine hfirst d hg fun h0 => hst ?_
        show update s.stored c.scalar (s.stored c.scalar + 1) d = 0
        rw [update_of_ne (Ne.symm hd), h0]
  | freeze dst d =>
    refine ⟨?_, h.code_next hs, ?_, h.live, h.order_op hs, ?_, hfirst⟩
    · intro e he
      have hne : e.cell ≠ .frozen d dst := fun hc => hkeep e he hc
      show update s.cells (.frozen d dst) (s.cells (.own d)) e.cell = e.value
      rw [update_of_ne hne]
      exact h.held e he
    · intro v c' hc'
      by_cases hv : v = dst
      · subst hv
        simp only [exec, update_self, mem_singleton] at hc'
        exact ⟨v, ⟨_, hmem, rfl, hc'⟩, .refl⟩
      · simp only [exec, update_of_ne hv] at hc'
        exact h.source v c' hc'
    · intro d' n hr
      refine h.settled_op hs ?_
      rcases hr with ⟨v, hv⟩ | hr
      · left
        by_cases hvd : v = dst
        · simp [exec, hvd] at hv
        · simp only [exec, update_of_ne hvd] at hv
          exact ⟨v, hv⟩
      · exact .inr hr
  | extent dst operands f =>
    -- `dst` comes from the loads its operands come from
    refine ⟨h.held, h.code_next hs, ?_, h.live, h.order_op hs, ?_, hfirst⟩
    · intro v c hc
      by_cases hv : v = dst
      · subst hv
        simp only [exec, update_self, mem_flatMap] at hc
        obtain ⟨w, hw, hcw⟩ := hc
        obtain ⟨dst', hl, hder⟩ := h.source w c hcw
        exact ⟨dst', hl, hder.tail ⟨_, hmem, if_pos hw⟩⟩
      · simp only [exec, update_of_ne hv] at hc
        exact h.source v c hc
    · intro d n hr
      refine h.settled_op hs ?_
      rcases hr with ⟨v, hv⟩ | hr
      · left
        by_cases hvd : v = dst
        · simp only [exec, hvd, update_self, mem_flatMap] at hv
          obtain ⟨w, -, hcw⟩ := hv
          exact ⟨w, hcw⟩
        · simp only [exec, update_of_ne hvd] at hv
          exact ⟨v, hv⟩
      · exact .inr hr
  | allocmem extents =>
    -- what becomes live is held now, and its load feeds this allocation
    have hnew : ∀ e ∈ (extents.flatMap s.source).map (fun c => Live.mk s.next c (s.cells c)),
        s.cells e.cell = e.value ∧ ∃ v ∈ extents, e.cell ∈ s.source v := by
      intro e he
      obtain ⟨c, hc, rfl⟩ := mem_map.mp he
      obtain ⟨v, hv, hcv⟩ := mem_flatMap.mp hc
      exact ⟨rfl, v, hv, hcv⟩
    refine ⟨?_, h.code_next hs, h.source, ?_, h.order_op hs, ?_, hfirst⟩
    · intro e he
      rcases mem_append.mp he with he | he
      · exact (hnew e he).1
      · exact h.held e he
    · intro e he
      rcases mem_append.mp he with he | he
      · obtain ⟨-, v, hv, hc⟩ := hnew e he
        obtain ⟨dst, hl, hder⟩ := h.source v e.cell hc
        exact ⟨dst, hl, v, hder, _, hmem, by simpa [Op.allocates] using hv⟩
      · exact h.live e he
    · intro d n hr
      refine h.settled_op hs ?_
      rcases hr with hr | ⟨e, he, hcell⟩
      · exact .inl hr
      · rcases mem_append.mp he with he | he
        · obtain ⟨-, v, -, hc⟩ := hnew e he
          exact .inl ⟨v, hcell ▸ hc⟩
        · exact .inr ⟨e, he, hcell⟩
  | freemem dead =>
    have hsub : ∀ e ∈ s.live.filter (fun e => !dead s.data e.array), e ∈ s.live :=
      fun e he => (mem_filter.mp he).1
    refine ⟨fun e he => h.held e (hsub e he), h.code_next hs, h.source,
      fun e he => h.live e (hsub e he), h.order_op hs, ?_, hfirst⟩
    intro d n hr
    refine h.settled_op hs ?_
    rcases hr with hr | ⟨e, he, hcell⟩
    · exact .inl hr
    · exact .inr ⟨e, hsub e he, hcell⟩
  | other f =>
    exact ⟨h.held, h.code_next hs, h.source, h.live, h.order_op hs,
      fun d n hr => h.settled_op hs hr, hfirst⟩

/-- **One step** that does not overwrite an extent keeps the invariant. -/
theorem Inv.next (h : Inv p s) (hord : Ordered p)
    (hfro : ∀ d, dec d = .frozen → ∀ dst, (∃ o ∈ p.ops, o.Loads dst (.own d)) →
      ¬ FeedsAllocation p.ops dst)
    (how : Spares dec s) : Inv p (step s) := by
  cases hs : s.todo with
  | nil =>
    rw [step_nil hs]
    exact h
  | cons x k =>
    cases x with
    | done => exact h.step_done hs
    | op o r => exact h.step_op hord hfro hs how
    | branch c t e r => exact h.step_branch hs
    | loop c body r => exact h.step_loop hs

end

theorem inv_start {p : Block S} (data : Data S) (cells : Cell → ℤ) :
    Inv p (start p data cells) := by
  refine ⟨by simp [start, ExtentsHeld], ?_, by simp [start], by simp [start], ?_, by simp [start],
    fun d _ h => absurd rfl h⟩
  · intro x hx o ho
    obtain rfl := mem_singleton.mp hx
    exact ho
  · intro A B hg
    exact ⟨hg, by simp, trivial⟩

/-! ## The promise of the pass -/

theorem ordered_source (f : Function S) : Ordered f.body := by
  have hfresh : ∀ d, f.body.Fresh d := fun d o ho => (f.body_source o ho).fresh d
  constructor
  · intro d k
    exact guarded_of_not_has (not_reads_version (hfresh d) k)
  · rintro ⟨o, ho, hw⟩
    have hsrc := f.body_source o ho
    cases o with
    | write c v =>
      cases c with
      | frozen d dst => exact absurd hsrc (by simp [Op.Source])
      | _ => exact hw
    | _ => exact hw

section

variable {p : Block S} {q : Path S} {s : State S} {dec : ℕ → Decision}

/-- **A path that overwrites nothing** is that of a run which spares the extents. -/
theorem Follows.spares (h : Follows dec q s) (hinv : Inv p s)
    (hfirst : ∀ d, dec d = .versioned → p.Guarded (Op.StoresTo d) (Op.Writes (.own d)))
    (how : q.overwrites dec = false) : Spares dec s := by
  have hlive : ∀ e' ∈ s.live, ∃ e ∈ q.live, ComesFrom e.load e'.cell := by
    have halike := h.live
    generalize q.live = l at halike
    generalize s.live = l' at halike
    induction halike with
    | nil => simp
    | cons he _ ih =>
      intro e' he'
      rcases mem_cons.mp he' with rfl | he'
      · exact ⟨_, mem_cons_self, he.2⟩
      · obtain ⟨e, he, hc⟩ := ih e' he'
        exact ⟨e, mem_cons_of_mem _ he, hc⟩
  unfold Spares
  split
  · rename_i d v r k hs
    have htodo := h.todo
    rw [hs] at htodo
    obtain ⟨x, k', hx, -, hq⟩ := forall₂_cons_right_iff.mp htodo
    cases hx with
    | @op o _ r' _ ho hr =>
      -- the path stores to the scalar too
      obtain ⟨⟨herase, -, -⟩, hsource⟩ := ho
      obtain rfl : o = .write (.own d) v := by
        cases o with
        | write c v' =>
          obtain ⟨hc, rfl⟩ : d = c.scalar ∧ v = v' := by simpa [Op.erase, Cell.scalar] using herase
          have hown : c = .own c.scalar := hsource
          rw [hown, ← hc]
        | freeze dst d' => exact hsource.elim
        | _ => simp [Op.erase] at herase
      unfold Path.overwrites at how
      rw [hq] at how
      have how : ((decide (dec d = .untouched) || decide (dec d = .versioned) &&
        decide (q.stored d = 0)) &&
          q.live.any fun e => decide (e.load.scalar = d)) = false := how
      by_contra hnot
      rw [not_or] at hnot
      obtain ⟨hnotFrozen, hcell⟩ := hnot
      push Not at hcell
      obtain ⟨e', he', hcell⟩ := hcell
      have hany : (q.live.any fun e => decide (e.load.scalar = d)) = true := by
        obtain ⟨e, he, hcomes⟩ := hlive e' he'
        refine any_eq_true.mpr ⟨e, he, ?_⟩
        rw [decide_eq_true_eq, ← hcomes.1, hcell]
        rfl
      rw [hany, Bool.and_true, Bool.or_eq_false_iff, decide_eq_false_iff_not] at how
      obtain ⟨huntouched, hversioned⟩ := how
      have hdec : dec d = .versioned := by
        cases hd : dec d with
        | untouched => exact absurd hd huntouched
        | versioned => rfl
        | frozen => exact absurd hd hnotFrozen
      have hstored : s.stored d ≠ 0 := by
        rw [h.stored]
        intro h0
        simp [hdec, h0] at hversioned
      have hwrites : (Op.write (.own d) v : Op S).Writes (.own d) := rfl
      exact hinv.first d (hfirst d hdec) hstored _ (hs ▸ mem_cons_self) ⟨_, mem_cons_self, hwrites⟩
  · rename_i dst d r k hs
    have htodo := h.todo
    rw [hs] at htodo
    obtain ⟨x, k', hx, -, hq⟩ := forall₂_cons_right_iff.mp htodo
    cases hx with
    | @op o _ r' _ ho hr =>
      -- the path comes to the load that takes the snapshot
      obtain ⟨⟨herase, -, hfreeze⟩, hsource⟩ := ho
      obtain rfl : o = .load dst (.own d) := by
        cases o with
        | load dst' c =>
          obtain ⟨rfl, hc⟩ : dst = dst' ∧ d = c.scalar := by simpa [Op.erase] using herase
          have hown : c = .own c.scalar := hsource
          rw [hown, ← hc]
        | freeze dst' d' => exact hsource.elim
        | _ => simp [Op.erase] at herase
      have hdec : dec d = .frozen := (hfreeze dst d rfl).resolve_left (by simp)
      unfold Path.overwrites at how
      rw [hq] at how
      have how : (decide (dec d = .frozen) && q.live.any fun e => decide (e.load = ⟨d, dst⟩)) =
        false := how
      intro e' he' hcell
      obtain ⟨e, he, hcomes⟩ := hlive e' he'
      have hload : e.load = ⟨d, dst⟩ := by
        have hscalar : d = e.load.scalar := by
          rw [← hcomes.1, hcell]
          rfl
        rw [ScalarLoad.mk.injEq]
        exact ⟨hscalar.symm, (hcomes.2 d dst hcell).symm⟩
      have hany : (q.live.any fun e => decide (e.load = ⟨d, dst⟩)) = true :=
        any_eq_true.mpr ⟨e, he, decide_eq_true hload⟩
      rw [hany, hdec] at how
      cases how
  · trivial

end

/-- `m = 0; do i = 0, 1; m = i + 1; if (i == 0) allocate(x(m)); end do`. -/
def backEdge : Function Unit where
  declares := [0]
  declares_nodup := nodup_own
  dummies := []
  body :=
    .op (.other fun m => m.set 0 0) <| .op (.other fun m => m.set 1 0) <|
    .op (.write (.own 0) 1) <|
    .loop (fun m => decide (m.env 0 < 2))
      (.op (.other fun m => m.set 1 (m.env 0 + 1)) <| .op (.write (.own 0) 1) <|
        .branch (fun m => decide (m.env 0 = 0))
          (.op (.load 2 (.own 0)) <| .op (.allocmem [2]) .done) .done <|
        .op (.other fun m => m.set 0 (m.env 0 + 1)) .done) <|
    .done
  body_source := by
    intro o ho
    simp only [Block.ops, List.mem_append, List.mem_cons, List.not_mem_nil, or_false] at ho
    rcases ho with rfl | rfl | rfl | (rfl | rfl | (rfl | rfl) | rfl) <;> trivial

end ShapeScalars
