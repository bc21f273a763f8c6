/-
# Worklists

The loop that pops a node off a stack, skips it if it has been seen, and pushes what it
leads to.  It ends on a finite type of nodes, and it sees exactly the nodes that are reached
from the ones it starts with, whatever part of the seen ones it leaves out of its pushes.
-/
import Mathlib.Data.Fintype.Card

open List

namespace Worklist

variable {α : Type*}

/-- The nodes seen, the last one first, from a stack of nodes; `push` says what is pushed for a node
when others have been seen. -/
def close [Fintype α] [DecidableEq α] (push : List α → α → List α) (work seen : List α) : List α :=
  match work with
  | [] => seen
  | a :: work => if a ∈ seen then close push work seen
      else close push (push (a :: seen) a ++ work) (a :: seen)
termination_by (Fintype.card α - seen.toFinset.card, work.length)
decreasing_by
  · exact Prod.Lex.right _ (Nat.lt_succ_self _)
  · rename_i ha
    apply Prod.Lex.left
    have hle : (insert a seen.toFinset).card ≤ Fintype.card α := Finset.card_le_univ _
    rw [Finset.card_insert_of_notMem (by simpa using ha)] at hle
    rw [List.toFinset_cons, Finset.card_insert_of_notMem (by simpa using ha)]
    omega

/-- The nodes reached over edges. -/
inductive Reached (edge : α → α → Prop) (roots : List α) : α → Prop
  | root {a : α} : a ∈ roots → Reached edge roots a
  | step {a b : α} : Reached edge roots a → edge a b → Reached edge roots b

variable [Fintype α] [DecidableEq α] {push : List α → α → List α} {edge : α → α → Prop}

/-- What has been seen stays seen. -/
theorem seen_subset (work seen : List α) : ∀ a ∈ seen, a ∈ close push work seen := by
  fun_induction close push work seen with
  | case1 seen => exact fun a ha => ha
  | case2 seen a work ha ih => exact ih
  | case3 seen a work ha ih => exact fun b hb => ih b (mem_cons_of_mem a hb)

/-- The stack is seen in the end. -/
theorem work_subset (work seen : List α) : ∀ a ∈ work, a ∈ close push work seen := by
  fun_induction close push work seen with
  | case1 seen => exact fun a ha => (not_mem_nil ha).elim
  | case2 seen a work ha ih =>
    intro b hb
    rcases mem_cons.1 hb with rfl | hb
    · exact seen_subset work seen b ha
    · exact ih b hb
  | case3 seen a work ha ih =>
    intro b hb
    rcases mem_cons.1 hb with rfl | hb
    · exact seen_subset _ _ b mem_cons_self
    · exact ih b (mem_append_right _ hb)

/-- **The nodes seen are closed under the edges**, if those that start out seen lead only to the
stack and to each other, and every edge of a node is pushed or leads to a node that has been
seen. -/
theorem closed (hpush : ∀ seen a b, edge a b → b ∈ seen ∨ b ∈ push seen a) (work seen : List α)
    (h : ∀ a ∈ seen, ∀ b, edge a b → b ∈ seen ∨ b ∈ work) :
    ∀ a ∈ close push work seen, ∀ b, edge a b → b ∈ close push work seen := by
  fun_induction close push work seen with
  | case1 seen =>
    intro a ha b hab
    rcases h a ha b hab with hb | hb
    · exact hb
    · cases hb
  | case2 seen a work ha ih =>
    apply ih
    intro c hc b hcb
    rcases h c hc b hcb with hb | hb
    · exact Or.inl hb
    · rcases mem_cons.1 hb with rfl | hb
      · exact Or.inl ha
      · exact Or.inr hb
  | case3 seen a work ha ih =>
    apply ih
    intro c hc b hcb
    rcases mem_cons.1 hc with rfl | hc
    · rcases hpush (c :: seen) c b hcb with hb | hb
      · exact Or.inl hb
      · exact Or.inr (mem_append_left _ hb)
    · rcases h c hc b hcb with hb | hb
      · exact Or.inl (mem_cons_of_mem a hb)
      · rcases mem_cons.1 hb with rfl | hb
        · exact Or.inl mem_cons_self
        · exact Or.inr (mem_append_right _ hb)

/-- Only reached nodes are seen, if only edges are pushed. -/
theorem reached_of_mem {roots : List α} (hpush : ∀ seen a, ∀ b ∈ push seen a, edge a b)
    (work seen : List α)
    (hwork : ∀ a ∈ work, Reached edge roots a) (hseen : ∀ a ∈ seen, Reached edge roots a) :
    ∀ a ∈ close push work seen, Reached edge roots a := by
  fun_induction close push work seen with
  | case1 seen => exact hseen
  | case2 seen a work ha ih => exact ih (fun b hb => hwork b (mem_cons_of_mem a hb)) hseen
  | case3 seen a work ha ih =>
    have hreach := hwork a mem_cons_self
    apply ih
    · intro b hb
      rcases mem_append.1 hb with hb | hb
      · exact hreach.step (hpush _ _ b hb)
      · exact hwork b (mem_cons_of_mem a hb)
    · intro b hb
      rcases mem_cons.1 hb with rfl | hb
      · exact hreach
      · exact hseen b hb

/-- **The loop sees exactly the nodes that are reached.** -/
theorem mem_close_iff (hclosed : ∀ seen a b, edge a b → b ∈ seen ∨ b ∈ push seen a)
    (hpush : ∀ seen a, ∀ b ∈ push seen a, edge a b) (roots : List α) (a : α) :
    a ∈ close push roots [] ↔ Reached edge roots a := by
  constructor
  · exact fun h => reached_of_mem hpush roots [] (fun b hb => .root hb)
      (fun b hb => (not_mem_nil hb).elim) a h
  · intro h
    induction h with
    | root ha => exact work_subset _ _ _ ha
    | step _ hab ih =>
      exact closed hclosed roots [] (fun b hb => (not_mem_nil hb).elim) _ ih _ hab

end Worklist
