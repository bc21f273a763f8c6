/-
# Matching brackets

The letters of a word may open or close.  How many stand open is counted from the left, how many
close something in front of the word from the right; a bracket has a partner where the count on
its other side is not zero.
-/
import Mathlib.Data.List.Basic

open List

namespace Brackets

/-- What a letter does. -/
inductive Side
  | opens
  | closes
  | plain

variable {α : Type*} (side : α → Side)

/-- The brackets open after a word, of those open before it and its own. -/
def depth : ℕ → List α → ℕ
  | n, [] => n
  | n, x :: l =>
    match side x with
    | .opens => depth (n + 1) l
    | .closes => depth (n - 1) l
    | .plain => depth n l

/-- The closing brackets of a word whose partners stand in front of it. -/
def pending : List α → ℕ
  | [] => 0
  | x :: l =>
    match side x with
    | .opens => pending l - 1
    | .closes => pending l + 1
    | .plain => pending l

/-- Every bracket has its partner within the word. -/
inductive Balanced : List α → Prop
  | nil : Balanced []
  | plain {x : α} {l : List α} (hx : side x = .plain) (h : Balanced l) : Balanced (x :: l)
  | group {o e : α} {l l' : List α} (ho : side o = .opens) (he : side e = .closes) (h : Balanced l)
      (h' : Balanced l') : Balanced (o :: (l ++ e :: l'))

/-- A bracket open in front of the word is closed in it. -/
def Closed (l : List α) : Prop := ∃ a e b, l = a ++ e :: b ∧ side e = .closes ∧ Balanced side a

/-- A bracket of the word is open behind it. -/
def Opened (l : List α) : Prop := ∃ a o b, l = a ++ o :: b ∧ side o = .opens ∧ Balanced side b

-- the equations of the two counts, made once for the proofs over them
attribute [local simp] pending depth

variable {side} {l l' : List α}

theorem Balanced.append (h : Balanced side l) (h' : Balanced side l') :
    Balanced side (l ++ l') := by
  induction h with
  | nil => exact h'
  | plain hx _ ih => exact .plain hx ih
  | group ho he h _ _ ih' =>
    rw [cons_append, append_assoc, cons_append]
    exact .group ho he h ih'

theorem Balanced.pending_append (h : Balanced side l) (l' : List α) :
    pending side (l ++ l') = pending side l' := by
  induction h generalizing l' with
  | nil => rfl
  | plain hx _ ih =>
    rw [cons_append, pending, hx]
    exact ih l'
  | @group o e a b ho he _ _ ih ih' =>
    have hbody := ih (e :: (b ++ l'))
    rw [pending, he] at hbody
    rw [cons_append, append_assoc, cons_append, pending, ho]
    show pending side (a ++ e :: (b ++ l')) - 1 = pending side l'
    rw [hbody]
    exact ih' l'

theorem depth_append (n : ℕ) (l l' : List α) :
    depth side n (l ++ l') = depth side (depth side n l) l' := by
  induction l generalizing n with
  | nil => rfl
  | cons x l ih =>
    simp only [cons_append, depth]
    cases side x <;> exact ih _

theorem Balanced.depth_eq (h : Balanced side l) (n : ℕ) : depth side n l = n := by
  induction h generalizing n with
  | nil => rfl
  | plain hx _ ih =>
    rw [depth, hx]
    exact ih n
  | group ho he _ _ ih ih' =>
    rw [depth, ho]
    show depth side (n + 1) _ = n
    rw [depth_append, ih, depth, he]
    exact ih' n

theorem closed_of_pending (n : ℕ) : ∀ l : List α, l.length ≤ n → 0 < pending side l →
    Closed side l := by
  induction n with
  | zero =>
    intro l hl hpos
    rw [length_eq_zero_iff.1 (Nat.le_zero.1 hl)] at hpos
    exact absurd hpos (Nat.lt_irrefl 0)
  | succ n ih =>
    rintro (_ | ⟨x, l⟩) hl hpos
    · exact absurd hpos (Nat.lt_irrefl 0)
    have hl : l.length ≤ n := Nat.le_of_succ_le_succ hl
    rw [pending] at hpos
    cases hx : side x with
    | closes => exact ⟨[], x, l, rfl, hx, .nil⟩
    | plain =>
      rw [hx] at hpos
      obtain ⟨a, e, b, rfl, he, ha⟩ := ih l hl hpos
      exact ⟨x :: a, e, b, rfl, he, .plain hx ha⟩
    | opens =>
      -- the first partner is that of `x`, the next one is looked for behind it
      rw [hx] at hpos
      have hpos : 0 < pending side l - 1 := hpos
      obtain ⟨a, e, b, rfl, he, ha⟩ := ih l hl (by omega)
      rw [ha.pending_append, pending, he] at hpos
      have hb : b.length ≤ n := by
        rw [length_append, length_cons] at hl
        omega
      obtain ⟨a', e', b', rfl, he', ha'⟩ := ih b hb hpos
      exact ⟨x :: (a ++ e :: a'), e', b', by simp, he', .group hx he ha ha'⟩

/-- A word closes a bracket in front of it where some closing bracket is pending. -/
theorem closed_iff : Closed side l ↔ 0 < pending side l := by
  constructor
  · rintro ⟨a, e, b, rfl, he, ha⟩
    rw [ha.pending_append, pending, he]
    exact Nat.succ_pos _
  · exact closed_of_pending _ l (Nat.le_refl _)

theorem opened_of_depth (n : ℕ) : ∀ l : List α, l.length ≤ n → 0 < depth side 0 l →
    Opened side l := by
  induction n with
  | zero =>
    intro l hl hpos
    rw [length_eq_zero_iff.1 (Nat.le_zero.1 hl)] at hpos
    exact absurd hpos (Nat.lt_irrefl 0)
  | succ n ih =>
    intro l hl hpos
    rcases l.eq_nil_or_concat' with rfl | ⟨l, x, rfl⟩
    · exact absurd hpos (Nat.lt_irrefl 0)
    rw [length_append] at hl
    have hl : l.length ≤ n := Nat.le_of_succ_le_succ hl
    rw [depth_append, depth] at hpos
    cases hx : side x with
    | opens => exact ⟨l, x, [], rfl, hx, .nil⟩
    | plain =>
      rw [hx] at hpos
      obtain ⟨a, o, b, rfl, ho, hb⟩ := ih l hl hpos
      exact ⟨a, o, b ++ [x], by simp, ho, hb.append (.plain hx .nil)⟩
    | closes =>
      -- the last partner is that of `x`, the next one is looked for in front of it
      rw [hx] at hpos
      have hpos : 0 < depth side 0 l - 1 := hpos
      obtain ⟨a, o, b, rfl, ho, hb⟩ := ih l hl (by omega)
      rw [depth_append, depth, ho] at hpos
      have hpos : 0 < depth side (depth side 0 a + 1) b - 1 := hpos
      rw [hb.depth_eq] at hpos
      have ha : a.length ≤ n := by
        rw [length_append] at hl
        omega
      obtain ⟨a', o', b', rfl, ho', hb'⟩ := ih a ha hpos
      exact ⟨a', o', b' ++ o :: (b ++ [x]), by simp, ho', hb'.append (.group ho hx hb .nil)⟩

/-- A bracket is open behind a word where the depth is not zero. -/
theorem opened_iff : Opened side l ↔ 0 < depth side 0 l := by
  constructor
  · rintro ⟨a, o, b, rfl, ho, hb⟩
    rw [depth_append, depth, ho]
    show 0 < depth side (depth side 0 a + 1) b
    rw [hb.depth_eq]
    exact Nat.succ_pos _
  · exact opened_of_depth _ l (Nat.le_refl _)

end Brackets
