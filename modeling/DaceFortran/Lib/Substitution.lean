/-
# Substitution of the matches of a pattern

A pattern is tried at every position of a text, from the left; where it matches, the match is
replaced, and the search goes on behind it.  If no match starts inside another one, the
replaced matches are all the matches there are (`sub_eq_iff`).
-/
import Mathlib.Data.List.Basic

open List

namespace Substitution

variable {α β : Type*}

/-- A pattern: what it finds at the head of a text, given the element before, and how far that
reaches.  It finds nothing in an empty text. -/
structure Pattern (α β : Type*) where
  matchHead : Option α → List α → Option β
  width : β → ℕ
  matchHead_nil : ∀ prev, matchHead prev [] = none

namespace Pattern

variable (P : Pattern α β)

/-- What the pattern finds at a position of a text. -/
def matchAt : Option α → List α → ℕ → Option β
  | prev, text, 0 => P.matchHead prev text
  | _, [], _ + 1 => none
  | _, a :: r, p + 1 => matchAt (some a) r p

/-- The matches found from the left, `skip` elements being inside the last one. -/
def findAll : ℕ → Option α → List α → List β
  | _, _, [] => []
  | 0, prev, a :: r =>
    match P.matchHead prev (a :: r) with
    | some b => b :: findAll (P.width b - 1) (some a) r
    | none => findAll 0 (some a) r
  | skip + 1, _, a :: r => findAll skip (some a) r

/-- The text with its matches replaced, by what is put there for a position and a match. -/
def sub (repl : ℕ → β → List α) : ℕ → ℕ → Option α → List α → List α
  | _, _, _, [] => []
  | pos, 0, prev, a :: r =>
    match P.matchHead prev (a :: r) with
    | some b => repl pos b ++ sub repl (pos + 1) (P.width b - 1) (some a) r
    | none => a :: sub repl (pos + 1) 0 (some a) r
  | pos, skip + 1, _, a :: r => sub repl (pos + 1) skip (some a) r

/-- No match starts inside another one. -/
def Apart : Prop :=
  ∀ prev text b, P.matchHead prev text = some b → ∀ k, 0 < k → k < P.width b →
    P.matchAt prev text k = none

variable {P}

variable (prev : Option α)

@[simp] theorem matchAt_zero (text : List α) : P.matchAt prev text 0 = P.matchHead prev text := by
  cases text with
  | nil => rfl
  | cons a r => rfl

theorem matchAt_nil (k : ℕ) : P.matchAt prev [] k = none := by
  cases k with
  | zero => exact P.matchHead_nil prev
  | succ k => rfl

theorem matchAt_append (u v : List α) (k : ℕ) :
    P.matchAt prev (u ++ v) (u.length + k) = P.matchAt (u.getLast?.or prev) v k := by
  induction u generalizing prev with
  | nil => simp
  | cons a u ih =>
    have hlast : ((a :: u).getLast?).or prev = u.getLast?.or (some a) := by
      cases u with
      | nil => rfl
      | cons b u => simp [List.getLast?_cons]
    rw [hlast, ← ih (some a), length_cons, show u.length + 1 + k = u.length + k + 1 by omega]
    rfl

/-- A match at a position is one at the head of some text. -/
theorem exists_matchHead {prev : Option α} {text : List α} {k : ℕ} {b : β}
    (h : P.matchAt prev text k = some b) :
    ∃ prev' text', P.matchHead prev' text' = some b := by
  induction k generalizing prev text with
  | zero =>
    rw [matchAt_zero] at h
    exact ⟨prev, text, h⟩
  | succ k ih =>
    cases text with
    | nil => cases h
    | cons a r => exact ih h

/-! ## Where no match starts -/

variable (P) in
/-- No match starts in `u`, where `v` follows. -/
def Silent (prev : Option α) (u v : List α) : Prop :=
  ∀ k < u.length, P.matchAt prev (u ++ v) k = none

theorem Silent.append {prev : Option α} {u u' v : List α} (hu : P.Silent prev u (u' ++ v))
    (hu' : P.Silent (u.getLast?.or prev) u' v) : P.Silent prev (u ++ u') v := by
  intro k hk
  rw [append_assoc]
  by_cases hlt : k < u.length
  · exact hu k hlt
  · obtain ⟨j, rfl⟩ := Nat.exists_eq_add_of_le (Nat.not_lt.1 hlt)
    rw [matchAt_append]
    rw [length_append] at hk
    exact hu' j (by omega)

theorem silent_of_forall {u : List α} (h : ∀ a ∈ u, ∀ prev r, P.matchHead prev (a :: r) = none)
    (prev : Option α)
    (v : List α) : P.Silent prev u v := by
  induction u generalizing prev with
  | nil =>
    intro k hk
    exact absurd hk (Nat.not_lt_zero k)
  | cons a u ih =>
    intro k hk
    cases k with
    | zero => exact h a mem_cons_self prev (u ++ v)
    | succ k =>
      exact ih (fun a' ha' => h a' (mem_cons_of_mem a ha')) (some a) k (Nat.lt_of_succ_lt_succ hk)

/-! ## Substitutions -/

/-- A fact about all the matches of a text, and those at its head and behind it. -/
theorem forall_matchAt_cons {prev : Option α} {a : α} {r : List α} {Q : ℕ → β → Prop} :
    (∀ k b, P.matchAt prev (a :: r) k = some b → Q k b) ↔
      (∀ b, P.matchHead prev (a :: r) = some b → Q 0 b) ∧ ∀ k b, P.matchAt (some a) r k = some b →
        Q (k + 1) b := by
  constructor
  · intro h
    exact ⟨fun b hb => h 0 b hb, fun k b hb => h (k + 1) b hb⟩
  · rintro ⟨h₀, h₁⟩ k b hb
    cases k with
    | zero => exact h₀ b hb
    | succ k => exact h₁ k b hb

/-- **Two substitutions agree where they replace every match alike, and nowhere else**, if the
replacements of one match can be told apart by how they begin. -/
theorem sub_eq_iff (hP : P.Apart) {e e' : ℕ → β → List α}
    (hcancel : ∀ prev text b, P.matchHead prev text = some b →
      ∀ pos x y, e pos b ++ x = e' pos b ++ y → e pos b = e' pos b)
    (pos skip : ℕ) (prev : Option α) (text : List α)
    (hskip : ∀ k < skip, P.matchAt prev text k = none) :
    P.sub e pos skip prev text = P.sub e' pos skip prev text ↔
      ∀ k b, P.matchAt prev text k = some b → e (pos + k) b = e' (pos + k) b := by
  induction text generalizing pos skip prev with
  | nil =>
    constructor
    · intro _ k b hb
      rw [matchAt_nil] at hb
      cases hb
    · intro _
      cases skip with
      | zero => rfl
      | succ skip => rfl
  | cons a r ih =>
    have hshift : ∀ (k : ℕ) (b : β), e (pos + 1 + k) b = e' (pos + 1 + k) b ↔
        e (pos + (k + 1)) b = e' (pos + (k + 1)) b := by
      intro k b
      rw [show pos + 1 + k = pos + (k + 1) by omega]
    rw [forall_matchAt_cons]
    cases skip with
    | succ skip =>
      have hhead : P.matchHead prev (a :: r) = none := hskip 0 (Nat.succ_pos skip)
      have hrest : ∀ k < skip, P.matchAt (some a) r k = none := fun k hk => hskip (k + 1) (by omega)
      rw [sub, sub, ih (pos + 1) skip (some a) hrest]
      simp only [hshift, hhead, reduceCtorEq, false_implies, implies_true, true_and]
    | zero =>
      cases hmatch : P.matchHead prev (a :: r) with
      | none =>
        have hnone : ∀ k < 0, P.matchAt (some a) r k = none :=
          fun k hk => absurd hk (Nat.not_lt_zero k)
        rw [sub, sub, hmatch]
        simp only [List.cons.injEq, true_and]
        rw [ih (pos + 1) 0 (some a) hnone]
        simp only [hshift, reduceCtorEq, false_implies, implies_true, true_and]
      | some b =>
        -- the search goes on behind the match, and misses nothing inside it
        have hinside : ∀ k < P.width b - 1, P.matchAt (some a) r k = none :=
          fun k hk => hP prev (a :: r) b hmatch (k + 1) (Nat.succ_pos k) (by omega)
        have ih' := ih (pos + 1) (P.width b - 1) (some a) hinside
        simp only [hshift] at ih'
        rw [sub, sub, hmatch]
        simp only [Option.some.injEq, forall_eq', Nat.add_zero]
        rw [← ih']
        constructor
        · intro h
          have hrepl := hcancel prev (a :: r) b hmatch pos _ _ h
          rw [hrepl] at h
          exact ⟨hrepl, append_cancel_left h⟩
        · rintro ⟨hrepl, hrest⟩
          rw [hrepl, hrest]

/-- A substitution that puts each match back leaves the text as it is. -/
theorem sub_self {e : ℕ → β → List α}
    (he : ∀ prev text b, P.matchHead prev text = some b → 0 < P.width b ∧
      ∀ pos, e pos b = text.take (P.width b))
    (pos skip : ℕ) (prev : Option α) (text : List α) :
    P.sub e pos skip prev text = text.drop skip := by
  induction text generalizing pos skip prev with
  | nil =>
    cases skip with
    | zero => rfl
    | succ skip => rfl
  | cons a r ih =>
    cases skip with
    | succ skip => exact ih (pos + 1) skip (some a)
    | zero =>
      rw [sub]
      cases hmatch : P.matchHead prev (a :: r) with
      | none =>
        simp only
        rw [ih (pos + 1) 0 (some a)]
        rfl
      | some b =>
        obtain ⟨hpos, hrepl⟩ := he prev (a :: r) b hmatch
        obtain ⟨w, hw⟩ := Nat.exists_eq_succ_of_ne_zero (Nat.ne_of_gt hpos)
        simp only
        rw [ih, hrepl, hw]
        simp

end Pattern

end Substitution

/-
# The matches of several patterns

The matches a pattern finds from the left, with their positions, do not overlap.  Where the
matches of several patterns are put in one queue, a match that overlaps an earlier one is left
out (`keepApart`).
-/

namespace Substitution

/-! ## A queue without overlaps -/

section Queue

variable {σ : Type*} (overlaps : σ → σ → Bool)

/-- The elements that overlap none queued before them, behind the queue `q`. -/
def keepApart : List σ → List σ → List σ
  | q, [] => q
  | q, a :: rest => if q.any (overlaps a) then keepApart q rest else keepApart (q ++ [a]) rest

variable {overlaps}

theorem keepApart_append (q A B : List σ) :
    keepApart overlaps q (A ++ B) = keepApart overlaps (keepApart overlaps q A) B := by
  induction A generalizing q with
  | nil => rfl
  | cons a A ih =>
    rw [cons_append, keepApart, keepApart]
    split
    · exact ih q
    · exact ih (q ++ [a])

/-- Elements that do not overlap each other are only kept out by the queue before them. -/
theorem keepApart_of_pairwise {A : List σ} (hA : A.Pairwise fun a b => overlaps b a = false)
    (q : List σ) :
    keepApart overlaps q A = q ++ A.filter fun a => !q.any (overlaps a) := by
  induction A generalizing q with
  | nil => rw [keepApart, filter_nil, append_nil]
  | cons a A ih =>
    obtain ⟨ha, hA'⟩ := pairwise_cons.1 hA
    rw [keepApart]
    split
    · next hq =>
      rw [ih hA' q, filter_cons_of_neg (by simp [hq])]
    · next hq =>
      have hrest : A.filter (fun b => !(q ++ [a]).any (overlaps b)) =
          A.filter fun b => !q.any (overlaps b) := by
        apply filter_congr
        intro b hb
        rw [any_append, any_cons, any_nil, ha b hb, Bool.or_false, Bool.or_false]
      rw [ih hA' (q ++ [a]), hrest, filter_cons_of_pos (by simp [hq]), append_assoc]
      rfl

end Queue

namespace Pattern

variable {α β : Type*} (P : Pattern α β)

/-- The matches found from the left with their positions, `skip` elements being inside the last
one. -/
def finditer : ℕ → ℕ → Option α → List α → List (ℕ × β)
  | _, _, _, [] => []
  | pos, 0, prev, a :: r =>
    match P.matchHead prev (a :: r) with
    | some b => (pos, b) :: finditer (pos + 1) (P.width b - 1) (some a) r
    | none => finditer (pos + 1) 0 (some a) r
  | pos, skip + 1, _, a :: r => finditer (pos + 1) skip (some a) r

/-- The first match, and nothing else. -/
def search (prev : Option α) (text : List α) : Option β := (P.findAll 0 prev text).head?

variable {P}

/-- What is found at a position is found at the head of the text from there. -/
theorem matchAt_eq (prev : Option α) (text : List α) (k : ℕ) :
    P.matchAt prev text k = P.matchHead ((text.take k).getLast?.or prev) (text.drop k) := by
  by_cases hk : k ≤ text.length
  · have h := matchAt_append (P := P) prev (text.take k) (text.drop k) 0
    rwa [take_append_drop, length_take_of_le hk, Nat.add_zero, matchAt_zero] at h
  · have hdrop : text.drop k = [] := drop_eq_nil_of_le (Nat.le_of_not_le hk)
    rw [hdrop, P.matchHead_nil]
    have h := matchAt_append (P := P) prev text [] (k - text.length)
    rwa [append_nil, Nat.add_sub_cancel' (Nat.le_of_not_le hk), matchAt_nil] at h

theorem mem_finditer {pos skip : ℕ} {prev : Option α} {text : List α} {p : ℕ} {b : β}
    (h : (p, b) ∈ P.finditer pos skip prev text) :
    ∃ k, skip ≤ k ∧ p = pos + k ∧ P.matchAt prev text k = some b := by
  induction text generalizing pos skip prev with
  | nil => cases h
  | cons a r ih =>
    cases skip with
    | succ skip =>
      obtain ⟨k, hk, hp, hm⟩ := ih h
      exact ⟨k + 1, by omega, by omega, hm⟩
    | zero =>
      rw [finditer] at h
      cases hmatch : P.matchHead prev (a :: r) with
      | none =>
        rw [hmatch] at h
        obtain ⟨k, _, hp, hm⟩ := ih h
        exact ⟨k + 1, by omega, by omega, hm⟩
      | some b₀ =>
        rw [hmatch, mem_cons] at h
        cases h with
        | inl h =>
          obtain ⟨rfl, rfl⟩ := Prod.mk.inj h
          exact ⟨0, Nat.le_refl 0, rfl, hmatch⟩
        | inr h =>
          obtain ⟨k, _, hp, hm⟩ := ih h
          exact ⟨k + 1, by omega, by omega, hm⟩

/-- **Matches found from the left do not overlap.** -/
theorem finditer_pairwise (pos skip : ℕ) (prev : Option α) (text : List α) :
    (P.finditer pos skip prev text).Pairwise fun x y => x.1 + P.width x.2 ≤ y.1 := by
  induction text generalizing pos skip prev with
  | nil => exact List.Pairwise.nil
  | cons a r ih =>
    cases skip with
    | succ skip => exact ih (pos + 1) skip (some a)
    | zero =>
      rw [finditer]
      cases hmatch : P.matchHead prev (a :: r) with
      | none => exact ih (pos + 1) 0 (some a)
      | some b =>
        refine List.Pairwise.cons ?_ (ih (pos + 1) (P.width b - 1) (some a))
        rintro ⟨p, b'⟩ hmem
        obtain ⟨k, hk, hp, _⟩ := mem_finditer hmem
        show pos + P.width b ≤ p
        omega

end Pattern

end Substitution
