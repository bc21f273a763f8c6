/-
# What `parse_affine` returns

The pattern takes the number that ends in front of the loop variable, whether or not the sign
between them makes them two terms.  The result over the terms follows, and from it when it is the
text's value.
-/
import DaceFortran.OffsetCopy.IntegerTerm
import Mathlib.Data.List.Infix
import Mathlib.Data.List.TakeWhile

open List

namespace OffsetCopy

/-! ## The loop variable cut out -/

/-- The slope read at the variable behind the terms, and what is left of them. -/
def taken (A : Terms) (s : Sign) : Kind → ℤ × Terms
  | .mulVar c => (c.val, A ++ [(s, .ext)])
  | _ =>
    match A.getLast? with
    | some (s', .num c) => (s.value * c.val, A.dropLast ++ [(s', .ext)])
    | some (s', .mulExt c) => (s.value * c.val, A.dropLast ++ [(s', .ext)])
    | _ => (s.value, A)

/-- The terms in front of the loop variable, and the others. -/
def inFront (T : Terms) : Terms := T.takeWhile fun q => !q.2.hasVar

def fromVar (T : Terms) : Terms := T.dropWhile fun q => !q.2.hasVar

def slopeRead (T : Terms) : ℤ :=
  match fromVar T with
  | [] => 0
  | (s, k) :: _ => (taken (inFront T) s k).1

def leftTerms (T : Terms) : Terms :=
  match fromVar T with
  | [] => T
  | (s, k) :: B => (taken (inFront T) s k).2 ++ B

/-- The coefficient in the match. -/
def coefficient (ds : List (Fin 10)) (neg : Bool) : ℤ :=
  if neg then -(if ds = [] then 1 else (natOf ds : ℤ)) else if ds = [] then 1 else (natOf ds : ℤ)

variable {A B : Terms} {s : Sign}

variable {q : Sign × Kind} {w : List Ch} {A : Terms} {k : Kind}

theorem Signed.first (h : Signed (A ++ q :: B)) (hq : q.1 = .none) :
    A = [] := by
  rcases A with - | ⟨p, A⟩
  · rfl
  · exact absurd hq (h q (mem_append_right A mem_cons_self))

theorem Signed.left (h : Signed (A ++ B)) : Signed A := by
  rcases A with - | ⟨p, A⟩
  · exact fun q hq => nomatch hq
  · exact fun q hq => h q (mem_append_left B hq)

theorem Signed.after (h : Signed (A ++ q :: B)) :
    ∀ p ∈ B, p.1 ≠ .none := by
  intro p hp
  rcases A with - | ⟨p', A⟩
  · exact h p hp
  · exact h p (mem_append_right A (mem_cons_of_mem q hp))

theorem digitsOf_map (ds : List (Fin 10)) (hw : (digitsOf w) = ([], w)) :
    digitsOf (ds.map Ch.digit ++ w) = (ds, w) := by
  induction ds with
  | nil => exact hw
  | cons d ds ih =>
    rw [map_cons, cons_append, digitsOf, ih]

variable (c : Num)

theorem asCoefficient_num (hw : digitsOf w = ([], w))
    (hrest : (signOf (dropStar w)).2 = []) :
    asCoefficient (c.text ++ w) = some (c.digits, (signOf (dropStar w)).1) := by
  have hdigits : digitsOf (c.text ++ w) = (c.digits, w) := digitsOf_map c.digits hw
  unfold asCoefficient
  rw [hdigits, if_pos hrest]

theorem Num.text_ne_nil (w : List Ch) : c.text ++ w ≠ [] := by
  simp [Num.text, Num.digits]

/-- The search behind a sign. -/
theorem search_terms (hs : s = .none → A = []) (hw : w ≠ [])
    (hvar : .var ∉ residue A ++ s.text ++ w) {q : List (Fin 10) × Bool}
    (hq : asCoefficient w = some q) (r : List Ch) :
    search (residue A ++ s.text ++ w ++ .var :: r) = some (q.1, q.2, residue A ++ s.text ++ r) := by
  refine search_spec _ hvar hq ?_ r
  intro p x hpre
  have hsigns {x : Ch} (hx : x = .plus ∨ x = .minus) : asCoefficient (x :: w) = none := by
    rcases hx with rfl | rfl <;> simp [asCoefficient, digitsOf, dropStar, signOf, hw]
  cases s with
  | none =>
    rw [hs rfl] at hpre
    exact absurd (congrArg List.length hpre) (by simp [residue, Sign.text])
  | plus =>
    have hx : [Ch.plus] = [x] := (append_inj' hpre rfl).2
    exact hsigns (.inl (head_eq_of_cons_eq hx).symm)
  | minus =>
    have hx : [Ch.minus] = [x] := (append_inj' hpre rfl).2
    exact hsigns (.inr (head_eq_of_cons_eq hx).symm)

theorem var_notMem_residue (hA : Free A) : .var ∉ residue A := by
  rw [var_mem_residue]
  rintro ⟨q, hq, hvar⟩
  rw [hA q hq] at hvar
  cases hvar

theorem var_notMem_sign (s : Sign) : Ch.var ∉ s.text := by cases s <;> simp [Sign.text]

theorem var_notMem_num : Ch.var ∉ c.text := by
  intro h
  obtain ⟨d, hd⟩ := Num.text_digits h
  cases hd

theorem digitsOf_sign (s : Sign) : digitsOf s.text = ([], s.text) := by cases s <;> rfl

theorem signOf_sign (s : Sign) : signOf s.text = (decide (s = .minus), []) := by cases s <;> rfl

theorem dropStar_sign (s : Sign) : dropStar s.text = s.text := by cases s <;> rfl

theorem coefficient_num (s : Sign) :
    coefficient c.digits (decide (s = .minus)) = s.value * c.val := by
  cases s <;> simp [coefficient, Sign.value, Num.val, Num.digits]

theorem coefficient_nil (s : Sign) : coefficient [] (decide (s = .minus)) = s.value := by
  cases s <;> simp [coefficient, Sign.value]

/-- In front of a variable without a coefficient stands no number. -/
theorem search_bare (hT : Signed (A ++ (s, .var) :: B)) (hA : Free A)
    (hlast : ∀ A' s' k, A = A' ++ [(s', k)] → k = .ext) :
    search (residue (A ++ (s, .var) :: B)) = some ([], decide (s = .minus), residue (A ++ B)) := by
  have hcoeff : asCoefficient s.text = some ([], decide (s = .minus)) := by
    unfold asCoefficient
    rw [digitsOf_sign, dropStar_sign, signOf_sign]
    rfl
  have htext : residue (A ++ (s, .var) :: B) = residue A ++ s.text ++ .var :: residue B := by
    rw [residue_append, residue_cons, rest_var]
    simp
  rw [htext, residue_append]
  have hvar : .var ∉ residue A ++ s.text := by
    simp [var_notMem_residue hA, var_notMem_sign]
  rcases eq_nil_or_concat A with rfl | ⟨A', ⟨s', k⟩, rfl⟩
  · exact search_spec [] hvar hcoeff (fun p x h => absurd (congrArg List.length h) (by simp)) _
  · rw [concat_eq_append] at hT hA hlast hvar ⊢
    obtain rfl := hlast A' s' k rfl
    have hs : s.text ≠ [] := by
      intro hnil
      have hnone : s = .none := by cases s <;> simp_all [Sign.text]
      exact absurd (hT.first hnone) (by simp)
    rw [residue_append, residue_cons, rest_ext] at hvar ⊢
    have hsearch := search_terms (A := A') (s := s') (fun hnone => by
      rw [append_assoc] at hT
      exact hT.first hnone) hs (by simpa [residue] using hvar) hcoeff (residue B)
    simpa [residue] using hsearch

/-- The number in front of the variable is taken with it. -/
theorem search_number {s s' : Sign} {c : Num} {t : List Ch}
    (hs' : s' = .none → A = []) (hA : Free A) (ht : dropStar (t ++ s.text) = s.text)
    (hdigits : digitsOf (t ++ s.text) = ([], t ++ s.text)) (hvar : Ch.var ∉ t) :
    search (residue A ++ s'.text ++ (c.text ++ (t ++ s.text)) ++ .var :: residue B) =
      some (c.digits, decide (s = .minus), residue (A ++ [(s', .ext)] ++ B)) := by
  have hcoeff : asCoefficient (c.text ++ (t ++ s.text)) = some (c.digits, decide (s = .minus)) := by
    rw [asCoefficient_num c hdigits (by rw [ht, signOf_sign]), ht, signOf_sign]
  have hvar : .var ∉ residue A ++ s'.text ++ (c.text ++ (t ++ s.text)) := by
    simp [var_notMem_residue hA, var_notMem_sign, var_notMem_num, hvar]
  rw [search_terms hs' (c.text_ne_nil _) hvar hcoeff, residue_append, residue_append, residue_cons,
    rest_ext]
  simp [residue]

theorem taken_bare (hlast : ∀ A' s' k, A = A' ++ [(s', k)] → k = .ext) (s : Sign) :
    taken A s .var = (s.value, A) := by
  rcases eq_nil_or_concat A with rfl | ⟨A', ⟨s', k⟩, rfl⟩
  · rfl
  · rw [concat_eq_append] at hlast ⊢
    obtain rfl := hlast A' s' k rfl
    simp [taken]

theorem search_taken (hT : Signed (A ++ (s, k) :: B))
    (hA : Free A) (hk : k = .var ∨ ∃ c, k = .mulVar c) :
    ∃ ds neg, search (residue (A ++ (s, k) :: B)) = some (ds, neg, residue ((taken A s k).2 ++ B)) ∧
      coefficient ds neg = (taken A s k).1 := by
  obtain rfl | ⟨c, rfl⟩ := hk
  · by_cases hlast : ∀ A' s' k, A = A' ++ [(s', k)] → k = .ext
    · rw [taken_bare hlast s]
      exact ⟨[], _, search_bare hT hA hlast, coefficient_nil s⟩
    · push Not at hlast
      obtain ⟨A', s', k, rfl, hk⟩ := hlast
      have hA' : Free A' := fun q hq => hA q (mem_append_left _ hq)
      have hs' : s' = .none → A' = [] := by
        rw [append_assoc] at hT
        exact hT.first
      have hfree : k.hasVar = false := hA (s', k) (mem_append_right _ mem_cons_self)
      cases k with
      | num c =>
        have htaken : taken (A' ++ [(s', .num c)]) s .var =
            (s.value * c.val, A' ++ [(s', .ext)]) := by simp [taken]
        have hsearch := search_number (B := B) (s := s) (c := c) (t := []) hs' hA'
          (dropStar_sign s) (digitsOf_sign s) (by simp)
        rw [htaken]
        refine ⟨c.digits, _, ?_, coefficient_num c s⟩
        rw [← hsearch, residue_append, residue_append, residue_cons, residue_cons,
          rest_num, rest_var]
        simp [residue]
      | mulExt c =>
        have htaken : taken (A' ++ [(s', .mulExt c)]) s .var =
            (s.value * c.val, A' ++ [(s', .ext)]) := by simp [taken]
        have hsearch := search_number (B := B) (s := s) (c := c) (t := [.star]) hs' hA' rfl rfl
          (by simp)
        rw [htaken]
        refine ⟨c.digits, _, ?_, coefficient_num c s⟩
        rw [← hsearch, residue_append, residue_append, residue_cons, residue_cons, rest_mulExt,
          rest_var]
        simp [residue]
      | ext => exact absurd rfl hk
      | _ => cases hfree
  · have hsearch := search_number (B := B) (s := .none) (c := c) (t := [.star]) hT.first hA rfl rfl
      (by simp)
    refine ⟨c.digits, _, ?_, (coefficient_num c .none).trans (one_mul _)⟩
    rw [taken, ← hsearch, residue_append, residue_cons, rest_mulVar]
    simp [Sign.text]

/-! ## The result over the terms -/

def Kind.paren : Kind → Bool
  | .prev | .mulPrev _ => true
  | _ => false

def extCount (T : Terms) : ℕ := (T.filter fun q => q.2.hasExt).length

variable (T : Terms)

theorem paren_mem_text :
    .lpar ∈ text T ∨ .rpar ∈ text T ↔ ∃ q ∈ T, q.2.paren = true := by
  have hnum (c : Num) : Ch.lpar ∉ c.text ∧ Ch.rpar ∉ c.text := by
    constructor <;> intro h <;> obtain ⟨d, hd⟩ := Num.text_digits h <;> cases hd
  have hsign (s : Sign) : Ch.lpar ∉ s.text ∧ Ch.rpar ∉ s.text := by cases s <;> simp [Sign.text]
  have hterm (q : Sign × Kind) : (.lpar ∈ q.1.text ++ q.2.text ↔ q.2.paren = true) ∧
      (.rpar ∈ q.1.text ++ q.2.text ↔ q.2.paren = true) := by
    rcases q with ⟨s, k⟩
    cases k <;> simp [Kind.text, Kind.paren, hnum, hsign, prevText]
  unfold text
  simp only [mem_flatMap, hterm, or_self]

theorem inFront_append_fromVar : inFront T ++ fromVar T = T :=
  takeWhile_append_dropWhile

theorem free_inFront : Free (inFront T) := by
  intro q hq
  simpa using mem_takeWhile_imp hq

theorem hasVar_of_fromVar {T B : Terms} (h : fromVar T = q :: B) :
    q.2.hasVar = true := by
  have hhead := List.head?_dropWhile_not (fun q : Sign × Kind => !q.2.hasVar) T
  have h : T.dropWhile (fun q => !q.2.hasVar) = q :: B := h
  rw [h] at hhead
  simpa using hhead

theorem vars_filter (h : Free T) : T.filter (fun q => q.2.hasVar) = [] :=
  filter_eq_nil_iff.2 fun q hq => by simp [h q hq]

theorem residue_taken_free (hA : Free A) (hB : Free B) :
    Free ((taken A s k).2 ++ B) := by
  have hmem : ∀ q ∈ (taken A s k).2, q.2.hasVar = false := by
    intro q hq
    unfold taken at hq
    split at hq
    · rcases mem_append.1 hq with hq | hq
      · exact hA q hq
      · rw [mem_singleton.1 hq]
        rfl
    · split at hq
      · rcases mem_append.1 hq with hq | hq
        · exact hA q (mem_of_mem_dropLast hq)
        · rw [mem_singleton.1 hq]
          rfl
      · rcases mem_append.1 hq with hq | hq
        · exact hA q (mem_of_mem_dropLast hq)
        · rw [mem_singleton.1 hq]
          rfl
      · exact hA q hq
  intro q hq
  rcases mem_append.1 hq with hq | hq
  · exact hmem q hq
  · exact hB q hq

/-- Refused over the resolved terms: a coefficient in front of a parenthesis, the variable twice, or
terms left that are no integer. -/
def Refused (T : Terms) : Prop :=
  (∃ q ∈ T, q.2.paren = true) ∨ 2 ≤ (T.filter fun q => q.2.hasVar).length ∨ ¬ Left (leftTerms T)

theorem taken_signed (hT : Signed (A ++ (s, k) :: B)) :
    Signed ((taken A s k).2 ++ B) := by
  have hafter := hT.after
  have hleft := hT.left
  have happend {A : Terms} (h : Signed A) : Signed (A ++ B) := by
    rcases A with - | ⟨p, A⟩
    · exact fun q hq => hafter q (mem_of_mem_tail hq)
    · intro q hq
      rcases mem_append.1 hq with hq | hq
      · exact h q hq
      · exact hafter q hq
  have hlast {A : Terms} {s : Sign} {k : Kind} (h : Signed (A ++ [(s, k)])) (k' : Kind) :
      Signed (A ++ [(s, k')]) := by
    rcases A with - | ⟨p, A⟩
    · exact fun q hq => nomatch hq
    · intro q hq
      rcases mem_append.1 hq with hq | hq
      · exact h q (mem_append_left _ hq)
      · rw [mem_singleton.1 hq]
        exact h (s, k) (mem_append_right _ mem_cons_self)
  refine happend ?_
  unfold taken
  split
  · rename_i c
    have hT : Signed ((A ++ [(s, .mulVar c)]) ++ B) := by simpa using hT
    exact hlast hT.left .ext
  · rcases eq_nil_or_concat A with rfl | ⟨A', ⟨s', k'⟩, rfl⟩
    · exact fun q hq => nomatch hq
    · rw [concat_eq_append] at hleft ⊢
      rw [List.getLast?_append_cons, List.getLast?_singleton, dropLast_concat]
      split
      · rename_i h
        cases h
        exact hlast hleft .ext
      · rename_i h
        cases h
        exact hlast hleft .ext
      · exact hleft

/-- What the function returns, over the resolved terms. -/
theorem parseAffine_eq {expr : List Ch} {T : Terms}
    (hexpr : expr.filter (fun c => c ≠ .space) = text T)
    (hT : Signed T) {a b n : ℤ} :
    parseAffine expr = some (a, b, n) ↔ ¬ Refused (resolved T) ∧ a = slopeRead (resolved T) ∧
      b = numbers (leftTerms (resolved T)) ∧ n = extCount (resolved T) := by
  have hR : Signed (resolved T) := hT.resolved
  unfold parseAffine
  rw [hexpr, substituted_text hT]
  generalize resolved T = R at hR ⊢
  simp only [paren_mem_text, filter_text, count_ext_text, var_mem_residue]
  unfold Refused
  by_cases hparen : ∃ q ∈ R, q.2.paren = true
  · rw [if_pos hparen]
    exact iff_of_false (by simp) fun h => h.1 (.inl hparen)
  · rw [if_neg hparen]
    have hfinish {U : Terms} (hsign : Signed U) (hfree : Free U) (a' : ℤ) :
        (finish (residue U)).map (fun b => (a', b, ((extCount R : ℕ) : ℤ))) = some (a, b, n) ↔
          Left U ∧ a = a' ∧ b = numbers U ∧ n = extCount R := by
      rw [finish_residue hsign hfree]
      unfold Left
      split_ifs with hleft
      · simp only [Option.map_some, Option.some.injEq, Prod.mk.injEq]
        exact ⟨fun h => ⟨hleft, h.1.symm, h.2.1.symm, h.2.2.symm⟩,
          fun h => ⟨h.2.1.symm, h.2.2.1.symm, h.2.2.2.symm⟩⟩
      · exact iff_of_false (by simp) fun h => hleft h.1
    -- the search finds the first term with the variable, if there is one
    cases hfrom : fromVar R with
    | nil =>
      have hsplit := inFront_append_fromVar R
      rw [hfrom, append_nil] at hsplit
      have hfree : Free R := hsplit ▸ free_inFront R
      have hnone : ¬ ∃ q ∈ R, q.2.hasVar = true := by
        rintro ⟨q, hq, hvar⟩
        rw [hfree q hq] at hvar
        cases hvar
      have hleft : leftTerms R = R := by rw [leftTerms, hfrom]
      have hslope : slopeRead R = 0 := by rw [slopeRead, hfrom]
      rw [if_neg hnone, hleft, hslope, vars_filter R hfree]
      have hiff := hfinish hR hfree 0
      rw [← extCount, hiff]
      simp [hparen]
    | cons p B =>
      rcases p with ⟨s, k⟩
      have hsplit := inFront_append_fromVar R
      rw [hfrom] at hsplit
      have hk : k.hasVar = true := hasVar_of_fromVar hfrom
      have hmem : (s, k) ∈ R := hsplit ▸ mem_append_right _ mem_cons_self
      have hkind : k = .var ∨ ∃ c, k = .mulVar c := by
        cases k with
        | var => exact .inl rfl
        | mulVar c => exact .inr ⟨c, rfl⟩
        | prev => exact absurd ⟨_, hmem, rfl⟩ hparen
        | mulPrev c => exact absurd ⟨_, hmem, rfl⟩ hparen
        | _ => cases hk
      have hA := free_inFront R
      have hleft : leftTerms R = (taken (inFront R) s k).2 ++ B := by rw [leftTerms, hfrom]
      have hslope : slopeRead R = (taken (inFront R) s k).1 := by rw [slopeRead, hfrom]
      have hsigned : Signed (inFront R ++ (s, k) :: B) := hsplit.symm ▸ hR
      obtain ⟨ds, neg, hsearch, hcoeff⟩ := search_taken hsigned hA hkind
      rw [hsplit] at hsearch
      rw [if_pos ⟨_, hmem, hk⟩, hsearch]
      have hcount : (R.filter fun q => q.2.hasVar).length =
          (B.filter fun q => q.2.hasVar).length + 1 := by
        rw [← hsplit, filter_append, vars_filter _ hA, filter_cons_of_pos (by simpa using hk)]
        simp
      rw [hcount, hleft, hslope, ← hcoeff]
      -- a second term with the variable stays in the residue and is refused there
      by_cases hB : Free B
      · have hfree := residue_taken_free (s := s) (k := k) hA hB
        have hvar : ¬ ∃ q ∈ (taken (inFront R) s k).2 ++ B, q.2.hasVar = true := by
          rintro ⟨q, hq, hvar⟩
          rw [hfree q hq] at hvar
          cases hvar
        have hiff := hfinish (taken_signed hsigned) hfree (coefficient ds neg)
        simp only [var_mem_residue, if_neg hvar, vars_filter B hB]
        refine hiff.trans ?_
        simp [hparen]
      · have hvar : ∃ q ∈ (taken (inFront R) s k).2 ++ B, q.2.hasVar = true := by
          unfold Free at hB
          push Not at hB
          obtain ⟨q, hq, hvar⟩ := hB
          exact ⟨q, mem_append_right _ hq, by simpa using hvar⟩
        have htwo : 2 ≤ (B.filter fun q => q.2.hasVar).length + 1 := by
          unfold Free at hB
          push Not at hB
          obtain ⟨q, hq, hvar⟩ := hB
          have hmem' : q ∈ B.filter fun q => q.2.hasVar :=
            mem_filter.2 ⟨hq, by simpa using hvar⟩
          have hpos := length_pos_of_mem hmem'
          omega
        simp only [var_mem_residue, if_pos hvar]
        exact iff_of_false (by simp) fun h => h.1 (.inr (.inl htwo))

end OffsetCopy
