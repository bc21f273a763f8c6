/-
# Must-analysis on a flow graph

A graph of blocks, each with a set of traces, its runs from a block to a sink,
and the analysis that asks whether some evidence must have been seen: a round
recomputes the exits of all blocks from their predecessors, starting from the
guess that every exit has the evidence.  Once the rounds have settled the
analysis is sound along every run (`Walk.covered`); nothing is claimed of a
graph whose rounds stop earlier.
-/
import Mathlib.Logic.Function.Iterate
import Mathlib.Data.List.Basic

open List

namespace FlowGraph

variable {α ε : Type*}

/-- An edge between two blocks of the graph, named by their positions. -/
structure Edge (ε : Type*) where
  src : ℕ
  dst : ℕ
  data : ε
  deriving DecidableEq

/-! ## Runs -/

/-- A run from block `b` to a sink: the traces of the blocks on the way, and what
is observed on leaving each of them. -/
inductive Walk (sem : List (List α → Prop)) (edges : List (Edge ε)) (leave : ℕ → List α) :
    ℕ → List α → Prop
  | stop {b : ℕ} {S : List α → Prop} {t : List α} : sem[b]? = some S → S t →
      (∀ e ∈ edges, e.src ≠ b) → Walk sem edges leave b t
  | step {b : ℕ} {S : List α → Prop} {t u : List α} {e : Edge ε} : sem[b]? = some S → S t →
      e ∈ edges → e.src = b → Walk sem edges leave e.dst u →
      Walk sem edges leave b (t ++ (leave b ++ u))

variable {leave : ℕ → List α} {t : List α}

variable {edges : List (Edge ε)} {sem : List (List α → Prop)}

/-- What holds of everything the blocks and the edges do holds along a run. -/
theorem Walk.forall_mem
    {Q : α → Prop} (hsem : ∀ S ∈ sem, ∀ t, S t → ∀ x ∈ t, Q x) (hleave : ∀ b, ∀ x ∈ leave b, Q x)
    {b : ℕ} (h : Walk sem edges leave b t) : ∀ x ∈ t, Q x := by
  induction h with
  | stop hS ht _ => exact hsem _ (mem_of_getElem? hS) _ ht
  | step hS ht _ _ _ ih =>
      intro x hx
      rcases mem_append.mp hx with hx | hx
      · exact hsem _ (mem_of_getElem? hS) _ ht x hx
      · rcases mem_append.mp hx with hx | hx
        · exact hleave _ x hx
        · exact ih x hx

/-- A run of one graph is, event by event, a run of a graph of the same shape. -/
theorem Walk.map {β : Type*} {sem' : List (List β → Prop)}
    {leave' : ℕ → List β} {f : α → β}
    {g : Edge ε → Edge ε} (hg : ∀ e, (g e).src = e.src ∧ (g e).dst = e.dst)
    (hsem : ∀ (b : ℕ) (S : List α → Prop) (t : List α), sem[b]? = some S → S t →
      ∃ S', sem'[b]? = some S' ∧ S' (t.map f))
    (hleave : ∀ b, leave' b = (leave b).map f) {b : ℕ}
    (h : Walk sem edges leave b t) : Walk sem' (edges.map g) leave' b (t.map f) := by
  induction h with
  | @stop b S t hS ht hsink =>
      obtain ⟨S', hS', ht'⟩ := hsem b S t hS ht
      refine Walk.stop hS' ht' ?_
      intro e he
      obtain ⟨e₀, he₀, rfl⟩ := mem_map.mp he
      rw [(hg e₀).1]
      exact hsink e₀ he₀
  | @step b S t u e hS ht he hsrc _ ih =>
      obtain ⟨S', hS', ht'⟩ := hsem b S t hS ht
      rw [map_append, map_append, ← hleave]
      refine Walk.step hS' ht' (mem_map.mpr ⟨e, he, rfl⟩) ((hg e).1.trans hsrc) ?_
      rw [(hg e).2]
      exact ih

/-- The run of a graph of one block. -/
theorem Walk.single {S : List α → Prop} (ht : S t) :
    Walk [S] ([] : List (Edge ε)) leave 0 t :=
  .stop rfl ht (by simp)

/-- The run of a graph of two blocks, one after the other. -/
theorem Walk.pair {S S' : List α → Prop} {d : ε} {t u : List α} (ht : S t)
    (hu : S' u) : Walk [S, S'] [⟨0, 1, d⟩] leave 0 (t ++ (leave 0 ++ u)) :=
  .step (e := ⟨0, 1, d⟩) rfl ht (by simp) rfl (.stop rfl hu (by simp))

/-! ## The analysis -/

/-- The transfer function of a block: from whether the evidence is there on entry
to whether the block is in order, and whether the evidence is there on exit. -/
abbrev Transfer := Bool → Bool × Bool

/-- What a block is entered with. -/
def entryOf (edges : List (Edge ε)) (entry : Bool) (out : ℕ → Bool) (b : ℕ) : Bool :=
  let preds := edges.filter (fun e => e.dst == b)
  if preds.isEmpty then entry else preds.all (fun e => out e.src)

/-- One round: the exits of all blocks, in the order of the list. -/
def round (tr : List Transfer) (edges : List (Edge ε)) (entry : Bool) (out : ℕ → Bool) : ℕ → Bool :=
  tr.zipIdx.foldl (fun out p => Function.update out p.2 (p.1 (entryOf edges entry out p.2)).2) out

/-- The exits after `k` rounds. -/
def solve (tr : List Transfer) (edges : List (Edge ε)) (entry : Bool) (k : ℕ) : ℕ → Bool :=
  (round tr edges entry)^[k] (fun _ => true)

/-- Every exit is what the block's transfer function makes of its entry. -/
def Settled (tr : List Transfer) (edges : List (Edge ε)) (entry : Bool) (out : ℕ → Bool) : Prop :=
  ∀ p ∈ tr.zipIdx, out p.2 = (p.1 (entryOf edges entry out p.2)).2

instance (tr : List Transfer) (edges : List (Edge ε)) (entry : Bool) (out : ℕ → Bool) :
    Decidable (Settled tr edges entry out) := by
  unfold Settled
  infer_instance

/-- All blocks are in order. -/
def blocksOk (tr : List Transfer) (edges : List (Edge ε)) (entry : Bool) (out : ℕ → Bool) : Bool :=
  tr.zipIdx.all (fun p => (p.1 (entryOf edges entry out p.2)).1)

/-- Whether the evidence is there at every sink. -/
def exitOf (tr : List Transfer) (edges : List (Edge ε)) (entry : Bool) (out : ℕ → Bool) : Bool :=
  let sinks := (List.range tr.length).filter (fun b => edges.all (fun e => e.src != b))
  if sinks.isEmpty then entry else sinks.all out

/-! ## Soundness -/

/-- Every observation that needs the evidence comes after it. -/
def Covered (has need : α → Prop) (t : List α) : Prop :=
  ∀ p r q, t = p ++ r :: q → need r → ∃ x ∈ p, has x

variable {has need : α → Prop}

theorem covered_nil : Covered has need ([] : List α) := by
  intro p r q h
  simp at h

/-- Evidence in the first part covers the second. -/
theorem Covered.append {t u : List α} (ht : Covered has need t)
    (hu : (∃ x ∈ t, has x) ∨ Covered has need u) : Covered has need (t ++ u) := by
  intro p r q h hr
  rcases append_eq_append_iff.mp h with ⟨w, rfl, hw⟩ | ⟨w, rfl, hw⟩
  · rcases hu with ⟨x, hx, hhas⟩ | hu
    · exact ⟨x, mem_append_left _ hx, hhas⟩
    · obtain ⟨x, hx, hhas⟩ := hu w r q hw hr
      exact ⟨x, mem_append_right _ hx, hhas⟩
  · cases w with
    | nil =>
        rcases hu with ⟨x, hx, hhas⟩ | hu
        · exact ⟨x, by simpa using hx, hhas⟩
        · obtain ⟨x, hx, -⟩ := hu [] r q hw.symm hr
          simp at hx
    | cons y w =>
        obtain ⟨rfl, rfl⟩ := List.cons.inj hw
        exact ht p r w rfl hr

/-- A trace without needs is covered. -/
theorem covered_of_forall_not (h : ∀ r ∈ t, ¬ need r) : Covered has need t :=
  fun p r _ ht hr => absurd hr (h r (ht ▸ mem_append_right p mem_cons_self))

/-- A transfer function tells the truth about traces entered without evidence. -/
structure Transfer.Sound (has need : α → Prop) (f : Transfer) (S : List α → Prop) : Prop where
  covered : (f false).1 = true → ∀ t, S t → Covered has need t
  exit : (f false).2 = true → ∀ t, S t → ∃ x ∈ t, has x

/-- **Soundness along runs.**  In a settled graph whose blocks are in order, what
a run needs is covered, and the run ends with the evidence if all sinks do. -/
theorem Walk.covered
    {tr : List Transfer} {entry : Bool} {out : ℕ → Bool} (hlen : tr.length = sem.length)
    (hsound : ∀ (b : ℕ) (f : Transfer) (S : List α → Prop), tr[b]? = some f → sem[b]? = some S →
      Transfer.Sound has need f S)
    (hsettled : Settled tr edges entry out) {b : ℕ} (hwalk : Walk sem edges leave b t)
    {w : List α} (hentry : entryOf edges entry out b = true → ∃ x ∈ w, has x) :
    (blocksOk tr edges entry out = true →
      (∀ b, ∀ r ∈ leave b, need r → out b = true) → Covered has need w →
        Covered has need (w ++ t)) ∧
      (exitOf tr edges entry out = true → ∃ x ∈ w ++ t, has x) := by
  -- what a block on the way does
  have hblock : ∀ {b : ℕ} {S : List α → Prop} {t w : List α}, sem[b]? = some S → S t →
      (entryOf edges entry out b = true → ∃ x ∈ w, has x) →
      (blocksOk tr edges entry out = true → Covered has need w → Covered has need (w ++ t)) ∧
        (out b = true → ∃ x ∈ w ++ t, has x) := by
    intro b S t w hS ht hw
    have hb : b < tr.length := by
      rw [hlen]
      exact (List.getElem?_eq_some_iff.mp hS).1
    obtain ⟨f, hf⟩ : ∃ f, tr[b]? = some f := ⟨tr[b], List.getElem?_eq_getElem hb⟩
    have hmem : (f, b) ∈ tr.zipIdx := mem_zipIdx_iff_getElem?.mpr hf
    have hf' := hsound b f S hf hS
    cases hv : entryOf edges entry out b with
    | true =>
        obtain ⟨x, hx, hhas⟩ := hw hv
        exact ⟨fun _ hcov => hcov.append (Or.inl ⟨x, hx, hhas⟩),
          fun _ => ⟨x, mem_append_left _ hx, hhas⟩⟩
    | false =>
        refine ⟨fun hok hcov => hcov.append (Or.inr (hf'.covered ?_ t ht)), fun hout => ?_⟩
        · have := all_eq_true.mp hok (f, b) hmem
          rwa [hv] at this
        · have hset := hsettled (f, b) hmem
          rw [hout, hv] at hset
          obtain ⟨x, hx, hhas⟩ := hf'.exit hset.symm t ht
          exact ⟨x, mem_append_right _ hx, hhas⟩
  induction hwalk generalizing w with
  | @stop b S t hS ht hsink =>
      obtain ⟨hcov, hout⟩ := hblock hS ht hentry
      refine ⟨fun hok _ hw => hcov hok hw, fun hexit => hout ?_⟩
      have hmem : b ∈ (List.range tr.length).filter (fun b => edges.all (fun e => e.src != b)) := by
        rw [mem_filter, mem_range, hlen]
        refine ⟨(List.getElem?_eq_some_iff.mp hS).1, ?_⟩
        simpa using hsink
      unfold exitOf at hexit
      simp only [isEmpty_eq_false_iff.mpr (ne_nil_of_mem hmem), Bool.false_eq_true,
        if_false] at hexit
      exact all_eq_true.mp hexit b hmem
  | @step b S t u e hS ht he hsrc hrest ih =>
      obtain ⟨hcov, hout⟩ := hblock hS ht hentry
      have hnext : entryOf edges entry out e.dst = true → ∃ x ∈ w ++ t ++ leave b, has x := by
        intro hv
        have hmem : e ∈ edges.filter (fun e' => e'.dst == e.dst) := by simpa using he
        unfold entryOf at hv
        simp only [isEmpty_eq_false_iff.mpr (ne_nil_of_mem hmem), Bool.false_eq_true,
          if_false] at hv
        have hsrc' := all_eq_true.mp hv e hmem
        rw [hsrc] at hsrc'
        obtain ⟨x, hx, hhas⟩ := hout hsrc'
        exact ⟨x, mem_append_left _ hx, hhas⟩
      obtain ⟨ihcov, ihexit⟩ := ih hnext
      have hassoc : w ++ (t ++ (leave b ++ u)) = w ++ t ++ leave b ++ u := by simp
      rw [hassoc]
      refine ⟨fun hok hleave hw => ihcov hok hleave ?_, ihexit⟩
      refine (hcov hok hw).append ?_
      by_cases hneed : ∃ r ∈ leave b, need r
      · obtain ⟨r, hr, hn⟩ := hneed
        exact Or.inl (hout (hleave b r hr hn))
      · push Not at hneed
        exact Or.inr (covered_of_forall_not hneed)

end FlowGraph
