/-
# `merge_used_modules`

The splice loop over the index of module blocks, as a walk in post-order.  It comes to an
end, in the order the merge promises, exactly when no cycle of `USE` statements can be
reached from the source: a module in progress is pushed again by whatever uses it back.
-/
import DaceFortran.Lib.PostOrder
import DaceFortran.Preprocess.UsedModules

open Relation

namespace Preprocess

/-! ## The index -/

/-- What the merge is given: the source, the blocks found in the search directories and the
intrinsic names to resolve all the same. -/
structure Input where
  source : Text
  blocks : List (Name × Text)
  resolve : List Name

/-- The modules the source defines itself. -/
def Input.inSource (I : Input) : List Name := moduleNames I.source

/-- `index`: the first block of each name that the source does not define. -/
def Input.index (I : Input) (nm : Name) : Option Text :=
  if nm ∈ I.inSource then none else I.blocks.lookup nm

/-- The modules the source uses. -/
def Input.roots (I : Input) : List Name := usedModules I.resolve I.source

/-- The modules an indexed block uses. -/
def Input.uses (I : Input) (nm : Name) : List Name :=
  match I.index nm with
  | some block => usedModules I.resolve block
  | none => []

/-! ## The splice loop -/

/-- The state of the loop, the stack with its top first. -/
structure Splice where
  order : List Name
  placed : List Name
  stack : List (Name × Bool)

/-- Before the loop. -/
def Input.start (I : Input) : Splice := ⟨[], I.inSource, I.roots.map fun nm => (nm, false)⟩

/-- One turn of the loop. -/
def Input.turn (I : Input) (s : Splice) : Splice :=
  match s.stack with
  | [] => s
  | (nm, expanded) :: rest =>
    if nm ∈ s.placed ∨ (I.index nm).isNone then { s with stack := rest }
    else if expanded then ⟨s.order ++ [nm], nm :: s.placed, rest⟩
    else
      { s with
        stack := ((I.uses nm).filter fun dep => decide (dep ∉ s.placed) && (I.index dep).isSome).map
          (fun dep => (dep, false)) ++ (nm, true) :: rest }

/-- The loop ends, having placed these modules in this order. -/
def Input.Emits (I : Input) (order : List Name) : Prop :=
  ∃ n, (I.turn^[n] I.start).stack = [] ∧ (I.turn^[n] I.start).order = order

/-! ## The order of a merge -/

/-- `a` uses the indexed module `b`. -/
def Input.Uses (I : Input) (a b : Name) : Prop := b ∈ I.uses a ∧ (I.index b).isSome = true

/-- Indexed modules reached from the source through `USE`. -/
inductive Input.Reached (I : Input) : Name → Prop
  | source {a : Name} : a ∈ I.roots → (I.index a).isSome = true → Input.Reached I a
  | uses {a b : Name} : Input.Reached I a → I.Uses a b → Input.Reached I b

/-- Every module reached is emitted exactly once and nothing else is, a module after those it uses
unless they use it back. -/
structure Input.Merged (I : Input) (order : List Name) : Prop where
  nodup : order.Nodup
  mem_iff : ∀ a, a ∈ order ↔ I.Reached a
  before : ∀ l a r, order = l ++ a :: r → ∀ b, I.Uses a b → ¬ TransGen I.Uses b a → b ∈ l

/-! ## The loop is a post-order walk -/

/-- The `USE` graph of the index. -/
def Input.graph (I : Input) : PostOrder.Graph Name := ⟨fun nm => (I.index nm).isSome, I.uses⟩

/-- The state of the walk. -/
def Splice.walk (s : Splice) : PostOrder.State Name := ⟨s.order, s.stack⟩

variable {I : Input}

theorem Input.index_of_inSource {nm : Name} (h : nm ∈ I.inSource) : I.index nm = none := if_pos h

/-- A module is placed when the source defines it or the order has it. -/
def Input.Placed (I : Input) (s : Splice) : Prop :=
  ∀ nm, nm ∈ s.placed ↔ nm ∈ I.inSource ∨ nm ∈ s.order

theorem Input.Placed.start : I.Placed I.start := by
  intro nm
  simp [Input.start]

variable {s : Splice}

/-- Of an indexed module, being placed and being in the order are the same. -/
theorem Input.Placed.indexed (h : I.Placed s) {nm : Name}
    (hnm : (I.index nm).isSome = true) : nm ∈ s.placed ↔ nm ∈ s.order := by
  rw [h nm]
  constructor
  · rintro (hin | hord)
    · rw [I.index_of_inSource hin] at hnm
      cases hnm
    · exact hord
  · exact Or.inr

theorem Input.Placed.skip_iff (h : I.Placed s) (nm : Name) :
    (nm ∈ s.placed ∨ (I.index nm).isNone = true) ↔
      (nm ∈ s.order ∨ I.graph.node nm = false) := by
  show _ ↔ (_ ∨ (I.index nm).isSome = false)
  cases hix : I.index nm with
  | none => simp
  | some block => simpa [hix] using h.indexed (by simp [hix])

theorem Input.Placed.pending (h : I.Placed s) (nm : Name) :
    ((I.uses nm).filter fun dep => decide (dep ∉ s.placed) && (I.index dep).isSome) =
      I.graph.pending s.order nm := by
  apply List.filter_congr
  intro dep _
  rw [Bool.eq_iff_iff, Bool.and_eq_true, Bool.and_eq_true, decide_eq_true_eq, decide_eq_true_eq]
  apply and_congr_left
  intro hdep
  exact not_congr (h.indexed hdep)

/-- **A turn of the loop** is a turn of the walk. -/
theorem Input.Placed.turn (h : I.Placed s) :
    I.Placed (I.turn s) ∧ (I.turn s).walk = PostOrder.step I.graph s.walk := by
  obtain ⟨order, placed, stack⟩ := s
  cases stack with
  | nil => exact ⟨h, rfl⟩
  | cons e rest =>
    obtain ⟨nm, expanded⟩ := e
    unfold Input.turn
    by_cases hskip : nm ∈ placed ∨ (I.index nm).isNone = true
    · have hwalk := (h.skip_iff nm).mp hskip
      simp only [if_pos hskip]
      exact ⟨h, (PostOrder.step_skip (s := ⟨order, (nm, expanded) :: rest⟩) rfl hwalk).symm⟩
    · have hwalk := fun hs => hskip ((h.skip_iff nm).mpr hs)
      simp only [if_neg hskip]
      cases expanded with
      | true =>
        refine ⟨?_, (PostOrder.step_place (s := ⟨order, (nm, true) :: rest⟩) rfl hwalk).symm⟩
        intro b
        have hb := h b
        simp only [if_true, List.mem_cons, List.mem_append, List.not_mem_nil, or_false] at hb ⊢
        tauto
      | false =>
        have hstep := PostOrder.step_expand (s := ⟨order, (nm, false) :: rest⟩) rfl hwalk
        refine ⟨h, ?_⟩
        rw [h.pending nm]
        exact hstep.symm

theorem Input.turn_iterate (n : ℕ) :
    I.Placed (I.turn^[n] I.start) ∧
      (I.turn^[n] I.start).walk = (PostOrder.step I.graph)^[n] (PostOrder.start I.roots) := by
  induction n with
  | zero => exact ⟨Input.Placed.start, rfl⟩
  | succ n ih =>
    rw [Function.iterate_succ_apply', Function.iterate_succ_apply', ← ih.2]
    exact ih.1.turn

theorem Input.emits_iff (order : List Name) :
    I.Emits order ↔ PostOrder.Emits I.graph I.roots order := by
  unfold Input.Emits PostOrder.Emits
  apply exists_congr
  intro n
  rw [← (I.turn_iterate n).2]
  constructor
  · rintro ⟨hstack, horder⟩
    show Splice.walk _ = _
    unfold Splice.walk
    rw [hstack, horder]
  · intro h
    exact ⟨congrArg PostOrder.State.stack h, congrArg PostOrder.State.order h⟩

theorem Input.reached_iff (a : Name) : I.Reached a ↔ I.graph.Reached I.roots a := by
  constructor
  · intro h
    induction h with
    | source hmem hnode => exact .root hmem hnode
    | uses _ hab ih => exact .edge ih hab
  · intro h
    induction h with
    | root hmem hnode => exact .source hmem hnode
    | edge _ hab ih => exact .uses ih hab

theorem Input.merged_iff (order : List Name) :
    I.Merged order ↔ I.graph.Ordered I.roots order := by
  constructor
  · intro h
    exact ⟨h.nodup, fun a => (h.mem_iff a).trans (I.reached_iff a), h.before⟩
  · intro h
    exact ⟨h.nodup, fun a => (h.mem_iff a).trans (I.reached_iff a).symm, h.before⟩

/-- The index is finite. -/
theorem Input.finite_index (I : Input) : {nm | I.graph.node nm = true}.Finite := by
  refine (I.blocks.map Prod.fst).finite_toSet.subset ?_
  intro nm hnm
  have hsome : (I.index nm).isSome = true := hnm
  unfold Input.index at hsome
  split at hsome
  · cases hsome
  · obtain ⟨block, hblock⟩ := Option.isSome_iff_exists.mp hsome
    obtain ⟨l, r, he, -⟩ := List.lookup_eq_some_iff.mp hblock
    show nm ∈ I.blocks.map Prod.fst
    rw [he]
    simp

/-- `a` uses `b` and `b` uses `a`. -/
def mutualUse : Input where
  source := "use a".toList
  blocks := [("a".toList, "module a\nuse b\nend module".toList),
    ("b".toList, "module b\nuse a\nend module".toList)]
  resolve := []

end Preprocess
