/-
# Reordering a sequence of steps

Steps on an arbitrary state type, run one after another by `List.foldl`, and
the reorderings that leave the final state alone: a permutation that keeps the
order of all dependent pairs (`foldl_perm_of_pairwise`), and moving the steps of
one kind to the front (`foldl_partition`).  Pairs only have to commute in the
states of an invariant set `P`.
-/
import Mathlib.Data.List.Perm.Basic
import Mathlib.Data.List.Pairwise

open List

namespace Reorder

variable {ι S : Type*} {step : S → ι → S} {P : S → Prop}

/-- Two steps commute in every state of `P`. -/
def CommuteOn (step : S → ι → S) (P : S → Prop) (a b : ι) : Prop :=
  ∀ s, P s → step (step s a) b = step (step s b) a

/-- The steps of a list keep `P`. -/
def Keeps (step : S → ι → S) (P : S → Prop) (l : List ι) : Prop :=
  ∀ a ∈ l, ∀ s, P s → P (step s a)

variable {l : List ι} {s : S}

theorem Keeps.foldl (h : Keeps step P l) (hs : P s) :
    P (l.foldl step s) := by
  induction l generalizing s with
  | nil => exact hs
  | cons a l ih =>
      exact ih (fun b hb => h b (mem_cons_of_mem a hb)) (h a mem_cons_self s hs)

/-- A step that commutes with all of `l` may be run before it. -/
theorem foldl_step_comm {a : ι} (hl : Keeps step P l)
    (hcomm : ∀ x ∈ l, CommuteOn step P a x) (hs : P s) :
    l.foldl step (step s a) = step (l.foldl step s) a := by
  induction l generalizing s with
  | nil => rfl
  | cons x l ih =>
      have hx : step (step s a) x = step (step s x) a := hcomm x mem_cons_self s hs
      rw [foldl_cons, foldl_cons, hx]
      exact ih (fun b hb => hl b (mem_cons_of_mem x hb))
        (fun y hy => hcomm y (mem_cons_of_mem x hy)) (hl x mem_cons_self s hs)

/-- **Reordering independent steps.**  If any two steps of `l` commute or depend
on one another (`D a b`, with `a` the earlier one), a permutation of `l` that
never puts a step before one it depends on ends in the same state. -/
theorem foldl_perm_of_pairwise {D : ι → ι → Prop} {l' : List ι} (hkeeps : Keeps step P l)
    (hl : l.Pairwise (fun a b => D a b ∨ CommuteOn step P a b)) (hperm : l'.Perm l)
    (hl' : l'.Pairwise (fun a b => ¬ D b a)) (hs : P s) :
    l'.foldl step s = l.foldl step s := by
  induction l generalizing l' s with
  | nil => rw [hperm.eq_nil]
  | cons a l ih =>
      -- everything `l'` runs before `a` commutes with it, so `a` can go first
      obtain ⟨p, q, rfl⟩ := append_of_mem (hperm.symm.subset mem_cons_self)
      have hrest : (p ++ q).Perm l := (perm_middle.symm.trans hperm).cons_inv
      rw [pairwise_cons] at hl
      have hp : ∀ x ∈ p, x ∈ l := fun x hx => hrest.subset (mem_append_left q hx)
      have hbefore : ∀ x ∈ p, CommuteOn step P a x := by
        intro x hx
        rcases hl.1 x (hp x hx) with hD | hC
        · exact absurd hD ((pairwise_append.mp hl').2.2 x hx a mem_cons_self)
        · exact hC
      have hkeeps' : Keeps step P l := fun b hb => hkeeps b (mem_cons_of_mem a hb)
      have hpq : (p ++ q).Pairwise (fun a b => ¬ D b a) :=
        hl'.sublist (List.Sublist.append_left (sublist_cons_self a q) p)
      calc (p ++ a :: q).foldl step s
          = q.foldl step (step (p.foldl step s) a) := by rw [foldl_append, foldl_cons]
        _ = q.foldl step (p.foldl step (step s a)) := by
            rw [foldl_step_comm (fun x hx => hkeeps' x (hp x hx)) hbefore hs]
        _ = (p ++ q).foldl step (step s a) := by rw [foldl_append]
        _ = l.foldl step (step s a) :=
            ih hkeeps' hl.2 hrest hpq (hkeeps a mem_cons_self s hs)

/-- **Hoisting.**  If every step of kind `p` commutes with the steps of the other
kind before it, running all steps of kind `p` first ends in the same state. -/
theorem foldl_partition (p : ι → Bool) (hkeeps : Keeps step P l)
    (hl : l.Pairwise (fun a b => p a = false → p b = true → CommuteOn step P a b))
    (hs : P s) :
    l.foldl step s = (l.filter (fun a => !p a)).foldl step ((l.filter p).foldl step s) := by
  induction l generalizing s with
  | nil => rfl
  | cons a l ih =>
      rw [pairwise_cons] at hl
      have hkeeps' : Keeps step P l := fun b hb => hkeeps b (mem_cons_of_mem a hb)
      have hrest := ih hkeeps' hl.2 (hkeeps a mem_cons_self s hs)
      cases hpa : p a with
      | true => simpa [hpa] using hrest
      | false =>
          have hcomm : ∀ x ∈ l.filter p, CommuteOn step P a x := by
            intro x hx
            rw [mem_filter] at hx
            exact hl.1 x hx.1 hpa hx.2
          have hkeepsf : Keeps step P (l.filter p) :=
            fun x hx => hkeeps' x (mem_of_mem_filter hx)
          simp only [filter_cons, hpa, Bool.not_false, if_true, foldl_cons,
            Bool.false_eq_true, if_false]
          rw [hrest, foldl_step_comm hkeepsf hcomm hs]

end Reorder
