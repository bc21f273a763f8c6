/-
# `parse_affine`

The characters of a subscript over the loop variable, the extent's symbol and integers.  The
function replaces a parenthesised `j-1`, counts and removes the extent, cuts the loop variable out
with what a pattern finds in front of it, and reads what is left as one integer.
-/
import Mathlib.Data.List.Basic
import Mathlib.Tactic.Ring

open List

namespace OffsetCopy

/-! ## The function -/

inductive Ch
  | digit (d : Fin 10)
  | plus
  | minus
  | star
  | lpar
  | rpar
  | var
  | ext
  | space
deriving DecidableEq

/-- `(j-1)` -/
def prevText : List Ch := [.lpar, .var, .minus, .digit 1, .rpar]

/-- `re.sub` of a sign in front of `(j-1)`; the first argument counts characters that are
skipped. -/
def subParen (sgn : Ch) (repl : List Ch) : ℕ → List Ch → List Ch
  | _, [] => []
  | k + 1, _ :: r => subParen sgn repl k r
  | 0, c :: r =>
    if c = sgn ∧ prevText <+: r then repl ++ subParen sgn repl 5 r else c :: subParen sgn repl 0 r

/-- `re.sub` of `^(j-1)`. -/
def subStart (e : List Ch) : List Ch :=
  if prevText <+: e then [.var, .minus, .digit 1] ++ e.drop 5 else e

def substituted (e : List Ch) : List Ch :=
  subStart (subParen .plus [.plus, .var, .minus, .digit 1] 0
    (subParen .minus [.minus, .var, .plus, .digit 1] 0 e))

/-- The digits at the start, and the rest. -/
def digitsOf : List Ch → List (Fin 10) × List Ch
  | .digit d :: r => (d :: (digitsOf r).1, (digitsOf r).2)
  | e => ([], e)

def dropStar : List Ch → List Ch
  | .star :: r => r
  | e => e

/-- Whether a minus sign stands at the start, and what follows the sign. -/
def signOf : List Ch → Bool × List Ch
  | .plus :: r => (false, r)
  | .minus :: r => (true, r)
  | e => (false, e)

/-- The pattern `(\d*)\*?([+-]?)j` at the start: its digits, its sign and what follows. -/
def matchHere (e : List Ch) : Option (List (Fin 10) × Bool × List Ch) :=
  match (signOf (dropStar (digitsOf e).2)).2 with
  | .var :: r => some ((digitsOf e).1, (signOf (dropStar (digitsOf e).2)).1, r)
  | _ => none

/-- The first match, and the text without it. -/
def search : List Ch → Option (List (Fin 10) × Bool × List Ch)
  | [] => none
  | c :: r =>
    match matchHere (c :: r) with
    | some q => some q
    | none => (search r).map fun q => (q.1, q.2.1, c :: q.2.2)

def natOf (ds : List (Fin 10)) : ℕ := ds.foldl (fun n d => n * 10 + d) 0

def stripPlus (e : List Ch) : List Ch :=
  ((e.dropWhile fun c => c = .plus).reverse.dropWhile fun c => c = .plus).reverse

/-- What is left of the text as an integer. -/
def finish (e : List Ch) : Option ℤ :=
  let e := if stripPlus e = [] then [.digit 0] else stripPlus e
  if e = [.minus] then some 0
  else
    let ds := digitsOf (signOf e).2
    if ds.1 ≠ [] ∧ ds.2 = [] then some (if (signOf e).1 then -(natOf ds.1 : ℤ) else natOf ds.1)
    else none

/-- The slope, the constant and the number of extents; none where the function raises. -/
def parseAffine (expr : List Ch) : Option (ℤ × ℤ × ℤ) :=
  let e := substituted (expr.filter fun c => c ≠ .space)
  if .lpar ∈ e ∨ .rpar ∈ e then none
  else
    let n := e.count .ext
    let e := e.filter fun c => c ≠ .ext
    if .var ∈ e then
      match search e with
      | none => none
      | some (ds, neg, rest) =>
        let coeff : ℤ := if ds = [] then 1 else natOf ds
        let a := if neg then -coeff else coeff
        if .var ∈ rest then none else (finish rest).map fun b => (a, b, n)
    else (finish e).map fun b => (0, b, n)

/-! ## Subscripts -/

structure Num where
  head : Fin 10
  tail : List (Fin 10)

def Num.digits (c : Num) : List (Fin 10) := c.head :: c.tail

def Num.val (c : Num) : ℕ := natOf c.digits

/-- `12`, the extent, `2*m`, the loop variable, `2*j`, `(j-1)`, `2*(j-1)`. -/
inductive Kind
  | num (c : Num)
  | ext
  | mulExt (c : Num)
  | var
  | mulVar (c : Num)
  | prev
  | mulPrev (c : Num)

inductive Sign
  | none
  | plus
  | minus
deriving DecidableEq

abbrev Terms := List (Sign × Kind)

def Num.text (c : Num) : List Ch := c.digits.map .digit

def Sign.text : Sign → List Ch
  | .none => []
  | .plus => [.plus]
  | .minus => [.minus]

def Kind.text : Kind → List Ch
  | .num c => c.text
  | .ext => [.ext]
  | .mulExt c => c.text ++ [.star, .ext]
  | .var => [.var]
  | .mulVar c => c.text ++ [.star, .var]
  | .prev => prevText
  | .mulPrev c => c.text ++ [.star] ++ prevText

def text (T : Terms) : List Ch := T.flatMap fun q => q.1.text ++ q.2.text

/-- Only the first term may go without a sign. -/
def Signed (T : Terms) : Prop := ∀ q ∈ T.tail, q.1 ≠ .none

def Sign.value : Sign → ℤ
  | .minus => -1
  | _ => 1

def Kind.value (j m : ℤ) : Kind → ℤ
  | .num c => c.val
  | .ext => m
  | .mulExt c => c.val * m
  | .var => j
  | .mulVar c => c.val * j
  | .prev => j - 1
  | .mulPrev c => c.val * (j - 1)

/-- What a subscript stands for. -/
def value (j m : ℤ) (T : Terms) : ℤ := (T.map fun q => q.1.value * q.2.value j m).sum

/-! ## Parentheses -/

/-- The sign of the one behind a resolved parenthesis. -/
def Sign.flip : Sign → Sign
  | .minus => .plus
  | _ => .minus

def one : Num := ⟨1, []⟩

/-- A parenthesised `j-1` behind the sign resolved. -/
def resolve (s : Sign) (q : Sign × Kind) : Terms :=
  match q.2 with
  | .prev => if q.1 = s then [(s, .var), (s.flip, .num one)] else [q]
  | _ => [q]

def resolved (T : Terms) : Terms :=
  ((T.flatMap (resolve .minus)).flatMap (resolve .plus)).flatMap (resolve .none)

variable (j m : ℤ)

theorem value_append (T T' : Terms) : value j m (T ++ T') = value j m T + value j m T' := by
  simp [value]

theorem value_cons (q : Sign × Kind) (T : Terms) :
    value j m (q :: T) = q.1.value * q.2.value j m + value j m T := by
  simp [value]

theorem value_resolve (s : Sign) (T : Terms) :
    value j m (T.flatMap (resolve s)) = value j m T := by
  induction T with
  | nil => rfl
  | cons q T ih =>
    rw [flatMap_cons, value_append, ih, value_cons]
    congr 1
    rcases q with ⟨s', k⟩
    cases k with
    | prev =>
      simp only [resolve]
      split_ifs with h
      · subst h
        have hone : one.val = 1 := rfl
        cases s' <;> simp [value, Sign.flip, Sign.value, Kind.value, hone] <;> ring
      · simp [value]
    | _ => simp [resolve, value]

theorem value_resolved (T : Terms) : value j m (resolved T) = value j m T := by
  rw [resolved, value_resolve, value_resolve, value_resolve]

theorem text_append (T T' : Terms) : text (T ++ T') = text T ++ text T' := flatMap_append

theorem text_cons (q : Sign × Kind) (T : Terms) : text (q :: T) =
    q.1.text ++ q.2.text ++ text T := rfl

theorem subParen_of_ne {sgn : Ch} {repl X : List Ch} (h : ∀ c ∈ X, c ≠ sgn) (rest : List Ch) :
    subParen sgn repl 0 (X ++ rest) = X ++ subParen sgn repl 0 rest := by
  induction X with
  | nil => rfl
  | cons c X ih =>
    have hc : c ≠ sgn := h c mem_cons_self
    rw [cons_append, subParen, if_neg (fun hand => hc hand.1),
      ih fun c' hc' => h c' (mem_cons_of_mem c hc'), cons_append]

theorem Num.text_digits {c : Num} {x : Ch} (h : x ∈ c.text) : ∃ d, x = .digit d := by
  obtain ⟨d, -, rfl⟩ := mem_map.1 h
  exact ⟨d, rfl⟩

/-- A sign of the text, as a character. -/
def Sign.char : Sign → Ch
  | .minus => .minus
  | _ => .plus

theorem not_prefix_kind {k : Kind} (hk : k ≠ .prev) (rest : List Ch) :
    ¬ prevText <+: k.text ++ rest := by
  cases k with
  | prev => exact absurd rfl hk
  | _ => simp [Kind.text, prevText, Num.text, Num.digits, cons_prefix_cons]

variable {s : Sign} {c : Ch} {q : List (Fin 10) × Bool} {e : List Ch}

theorem subParen_kind {repl : List Ch} (k : Kind) (rest : List Ch) :
    subParen s.char repl 0 (k.text ++ rest) = k.text ++ subParen s.char repl 0 rest := by
  have hdigits (c : Num) : ∀ x ∈ c.text, x ≠ s.char := by
    intro x hx
    obtain ⟨d, rfl⟩ := Num.text_digits hx
    cases s <;> simp [Sign.char]
  have hprev (rest : List Ch) : subParen s.char repl 0 (prevText ++ rest) =
      prevText ++ subParen s.char repl 0 rest := by
    cases s <;> simp [subParen, prevText, Sign.char, cons_prefix_cons]
  have hone {c : Ch} (hc : c ≠ s.char) (rest : List Ch) : subParen s.char repl 0 (c :: rest) =
      c :: subParen s.char repl 0 rest := by
    rw [subParen, if_neg fun h => hc h.1]
  have hstar : Ch.star ≠ s.char := by cases s <;> simp [Sign.char]
  have hvar : Ch.var ≠ s.char := by cases s <;> simp [Sign.char]
  have hext : Ch.ext ≠ s.char := by cases s <;> simp [Sign.char]
  cases k with
  | num c => exact subParen_of_ne (hdigits c) rest
  | ext => exact hone hext rest
  | mulExt c =>
    simp only [Kind.text, append_assoc, cons_append, nil_append]
    rw [subParen_of_ne (hdigits c), hone hstar, hone hext]
  | var => exact hone hvar rest
  | mulVar c =>
    simp only [Kind.text, append_assoc, cons_append, nil_append]
    rw [subParen_of_ne (hdigits c), hone hstar, hone hvar]
  | prev => exact hprev rest
  | mulPrev c =>
    simp only [Kind.text, append_assoc, cons_append, nil_append]
    rw [subParen_of_ne (hdigits c), hone hstar, hprev]

/-- The substitution resolves the parentheses behind its sign. -/
theorem subParen_text (hs : s ≠ .none) (T : Terms) :
    subParen s.char [s.char, .var, s.flip.char, .digit 1] 0 (text T) =
      text (T.flatMap (resolve s)) := by
  induction T with
  | nil => rfl
  | cons q T ih =>
    rcases q with ⟨s', k⟩
    rw [flatMap_cons, text_append, ← ih, text_cons]
    by_cases hprev : k = .prev ∧ s' = s
    · obtain ⟨rfl, rfl⟩ := hprev
      cases s' with
      | none => exact absurd rfl hs
      | plus =>
        simp [resolve, text, Sign.text, Sign.char, Sign.flip, Kind.text, prevText, subParen,
          cons_prefix_cons, Num.text, Num.digits, one]
      | minus =>
        simp [resolve, text, Sign.text, Sign.char, Sign.flip, Kind.text, prevText, subParen,
          cons_prefix_cons, Num.text, Num.digits, one]
    · have hresolve : resolve s (s', k) = [(s', k)] := by
        cases k with
        | prev =>
          have hne : s' ≠ s := fun h => hprev ⟨rfl, h⟩
          simp [resolve, hne]
        | _ => rfl
      rw [hresolve]
      have htext : text [(s', k)] = s'.text ++ k.text := by simp [text]
      rw [htext, append_assoc, append_assoc]
      have hsign : subParen s.char [s.char, .var, s.flip.char, .digit 1] 0
          (s'.text ++ (k.text ++ text T)) = s'.text ++
            subParen s.char [s.char, .var, s.flip.char, .digit 1] 0 (k.text ++ text T) := by
        by_cases hsame : s' = s
        · have hk : k ≠ .prev := fun h => hprev ⟨h, hsame⟩
          cases s' with
          | none => rfl
          | plus =>
            simp only [Sign.text, cons_append, nil_append]
            rw [subParen, if_neg fun h => not_prefix_kind hk _ h.2]
          | minus =>
            simp only [Sign.text, cons_append, nil_append]
            rw [subParen, if_neg fun h => not_prefix_kind hk _ h.2]
        · refine subParen_of_ne ?_ _
          intro c hc
          cases s' <;> cases s <;> simp_all [Sign.text, Sign.char]
      rw [hsign, subParen_kind]

variable {T : Terms} {w : List Ch}

theorem subStart_text (hT : Signed T) :
    subStart (text T) = text (T.flatMap (resolve .none)) := by
  have hrest {T : Terms} (h : ∀ q ∈ T, q.1 ≠ .none) : T.flatMap (resolve .none) = T := by
    induction T with
    | nil => rfl
    | cons q T ih =>
      have hq := h q mem_cons_self
      rw [flatMap_cons, ih fun q' hq' => h q' (mem_cons_of_mem q hq')]
      rcases q with ⟨s, k⟩
      cases k with
      | prev => simp [resolve, show s ≠ Sign.none from hq]
      | _ => rfl
  cases T with
  | nil => rfl
  | cons q T =>
    rcases q with ⟨s, k⟩
    have hT : ∀ q ∈ T, q.1 ≠ .none := hT
    rw [flatMap_cons, hrest hT, text_append]
    by_cases hprev : k = .prev ∧ s = .none
    · obtain ⟨rfl, rfl⟩ := hprev
      simp [subStart, text, resolve, Sign.text, Kind.text, prevText, Num.text, Num.digits, one,
        Sign.flip, cons_prefix_cons]
    · have hresolve : resolve .none (s, k) = [(s, k)] := by
        cases k with
        | prev =>
          have hne : s ≠ .none := fun h => hprev ⟨rfl, h⟩
          simp [resolve, hne]
        | _ => rfl
      have hnot : ¬ prevText <+: text ((s, k) :: T) := by
        rw [text_cons, append_assoc]
        cases s with
        | none =>
          have hk : k ≠ .prev := fun h => hprev ⟨h, rfl⟩
          exact not_prefix_kind hk _
        | plus => simp [Sign.text, prevText, cons_prefix_cons]
        | minus => simp [Sign.text, prevText, cons_prefix_cons]
      rw [subStart, if_neg hnot, hresolve, ← text_append]
      rfl

theorem mem_resolve {q : Sign × Kind} (h : q ∈ T.flatMap (resolve s)) :
    q ∈ T ∨ ((q = (s, .var) ∨ q = (s.flip, .num one)) ∧ (s, .prev) ∈ T) := by
  obtain ⟨p, hp, hq⟩ := mem_flatMap.1 h
  rcases p with ⟨s', k⟩
  cases k with
  | prev =>
    simp only [resolve] at hq
    split_ifs at hq with hs
    · subst hs
      exact .inr ⟨by simpa using hq, hp⟩
    · rw [mem_singleton.1 hq]
      exact .inl hp
  | _ =>
    rw [mem_singleton.1 hq]
    exact .inl hp

theorem Signed.resolve (h : Signed T) : Signed (T.flatMap (resolve s)) := by
  have hflip : s.flip ≠ .none := by cases s <;> simp [Sign.flip]
  cases T with
  | nil => exact h
  | cons p T =>
    have hrest : ∀ q ∈ T.flatMap (OffsetCopy.resolve s), q.1 ≠ .none := by
      intro q hq
      rcases mem_resolve hq with hq | ⟨rfl | rfl, hprev⟩
      · exact h q hq
      · exact h (s, .prev) hprev
      · exact hflip
    rcases p with ⟨s', k⟩
    intro q hq
    rw [flatMap_cons] at hq
    cases k with
    | prev =>
      simp only [OffsetCopy.resolve] at hq
      split_ifs at hq
      · rcases mem_cons.1 hq with rfl | hq
        · exact hflip
        · exact hrest q hq
      · exact hrest q hq
    | _ => exact hrest q hq

theorem Signed.resolved (h : Signed T) : Signed (resolved T) := h.resolve.resolve.resolve

theorem substituted_text (hT : Signed T) : substituted (text T) = text (resolved T) := by
  have hminus := subParen_text (s := .minus) (by decide) T
  have hplus := subParen_text (s := .plus) (by decide) (T.flatMap (resolve .minus))
  unfold substituted
  have h1 : subParen .minus [.minus, .var, .plus, .digit 1] 0 (text T) =
      text (T.flatMap (resolve .minus)) := hminus
  have h2 : subParen .plus [.plus, .var, .minus, .digit 1] 0 (text (T.flatMap (resolve .minus))) =
      text ((T.flatMap (resolve .minus)).flatMap (resolve .plus)) := hplus
  rw [h1, h2, subStart_text hT.resolve.resolve]
  rfl

/-! ## What is left without the extent -/

/-- The text of a term without the extent. -/
def rest (q : Sign × Kind) : List Ch := (q.1.text ++ q.2.text).filter fun c => c ≠ .ext

def residue (T : Terms) : List Ch := T.flatMap rest

theorem filter_text (T : Terms) : (text T).filter (fun c => c ≠ .ext) = residue T := by
  unfold text residue
  rw [filter_flatMap]
  rfl

theorem residue_append (T T' : Terms) : residue (T ++ T') = residue T ++ residue T' :=
  flatMap_append

theorem residue_cons (q : Sign × Kind) (T : Terms) : residue (q :: T) = rest q ++ residue T := rfl

theorem filter_num (c : Num) : c.text.filter (fun x => x ≠ .ext) = c.text := by
  refine filter_eq_self.2 fun x hx => ?_
  obtain ⟨d, rfl⟩ := Num.text_digits hx
  rfl

theorem filter_sign (s : Sign) : s.text.filter (fun x => x ≠ .ext) = s.text := by
  cases s <;> rfl

theorem rest_num (s : Sign) (c : Num) : rest (s, .num c) = s.text ++ c.text := by
  rw [rest, filter_append, filter_sign, Kind.text, filter_num]

theorem rest_ext (s : Sign) : rest (s, .ext) = s.text := by
  rw [rest, filter_append, filter_sign]
  exact append_nil _

theorem rest_mulExt (s : Sign) (c : Num) : rest (s, .mulExt c) = s.text ++ c.text ++ [.star] := by
  rw [rest, filter_append, filter_sign, Kind.text, filter_append, filter_num,
    append_assoc]
  rfl

theorem rest_var (s : Sign) : rest (s, .var) = s.text ++ [.var] := by
  rw [rest, filter_append, filter_sign]
  rfl

theorem rest_mulVar (s : Sign) (c : Num) :
    rest (s, .mulVar c) = s.text ++ c.text ++ [.star, .var] := by
  rw [rest, filter_append, filter_sign, Kind.text, filter_append, filter_num,
    append_assoc]
  rfl

/-- The loop variable alone or with a coefficient. -/
def Kind.hasVar : Kind → Bool
  | .var | .mulVar _ | .prev | .mulPrev _ => true
  | _ => false

/-- The extent alone or with a coefficient. -/
def Kind.hasExt : Kind → Bool
  | .ext | .mulExt _ => true
  | _ => false

theorem var_mem_rest (q : Sign × Kind) : .var ∈ rest q ↔ q.2.hasVar = true := by
  rcases q with ⟨s, k⟩
  have hsign : Ch.var ∉ s.text := by cases s <;> simp [Sign.text]
  have hnum (c : Num) : Ch.var ∉ c.text := by
    intro h
    obtain ⟨d, hd⟩ := Num.text_digits h
    cases hd
  unfold rest
  rw [mem_filter, mem_append]
  cases k <;> simp [Kind.text, Kind.hasVar, hsign, hnum, prevText]

theorem var_mem_residue (T : Terms) : .var ∈ residue T ↔ ∃ q ∈ T, q.2.hasVar = true := by
  unfold residue
  rw [mem_flatMap]
  simp only [var_mem_rest]

theorem count_ext_text (T : Terms) :
    (text T).count .ext = (T.filter fun q => q.2.hasExt).length := by
  induction T with
  | nil => rfl
  | cons q T ih =>
    rcases q with ⟨s, k⟩
    have hsign : s.text.count .ext = 0 := by cases s <;> rfl
    have hnum (c : Num) : c.text.count .ext = 0 := by
      rw [count_eq_zero]
      intro h
      obtain ⟨d, hd⟩ := Num.text_digits h
      cases hd
    rw [text_cons, count_append, count_append, ih, hsign]
    cases k <;> simp [Kind.text, Kind.hasExt, hnum, prevText] <;> omega

/-! ## The pattern -/

/-- The text in front of the variable as digits, a star and a sign. -/
def asCoefficient (w : List Ch) : Option (List (Fin 10) × Bool) :=
  if (signOf (dropStar (digitsOf w).2)).2 = [] then
    some ((digitsOf w).1, (signOf (dropStar (digitsOf w).2)).1)
  else none

theorem digitsOf_append_var (w r : List Ch) :
    digitsOf (w ++ .var :: r) = ((digitsOf w).1, (digitsOf w).2 ++ .var :: r) := by
  induction w with
  | nil => rfl
  | cons c w ih =>
    cases c with
    | digit d => simp only [cons_append, digitsOf, ih]
    | _ => rfl

theorem dropStar_append_var (w r : List Ch) :
    dropStar (w ++ .var :: r) = dropStar w ++ .var :: r := by
  rcases w with - | ⟨c, w⟩
  · rfl
  · cases c <;> rfl

theorem signOf_append_var (w r : List Ch) :
    signOf (w ++ .var :: r) = ((signOf w).1, (signOf w).2 ++ .var :: r) := by
  rcases w with - | ⟨c, w⟩
  · rfl
  · cases c <;> rfl

theorem mem_of_mem_signOf (h : c ∈ (signOf w).2) : c ∈ w := by
  rcases w with - | ⟨x, w⟩
  · exact h
  · cases x <;> first | exact h | exact mem_cons_of_mem _ h

theorem mem_of_mem_dropStar (h : c ∈ dropStar w) : c ∈ w := by
  rcases w with - | ⟨x, w⟩
  · exact h
  · cases x <;> first | exact h | exact mem_cons_of_mem _ h

theorem mem_of_mem_digitsOf (h : c ∈ (digitsOf w).2) : c ∈ w := by
  induction w with
  | nil => exact h
  | cons x w ih =>
    cases x with
    | digit d => exact mem_cons_of_mem _ (ih h)
    | _ => exact h

theorem matchHere_append_var (hw : .var ∉ w) (r : List Ch) :
    matchHere (w ++ .var :: r) = (asCoefficient w).map fun q => (q.1, q.2, r) := by
  unfold matchHere asCoefficient
  rw [digitsOf_append_var, dropStar_append_var, signOf_append_var]
  have hmem : .var ∉ (signOf (dropStar (digitsOf w).2)).2 := fun h =>
    hw (mem_of_mem_digitsOf (mem_of_mem_dropStar (mem_of_mem_signOf h)))
  cases hrest : (signOf (dropStar (digitsOf w).2)).2 with
  | nil => simp
  | cons c w' =>
    rw [hrest] at hmem
    cases c with
    | var => exact absurd mem_cons_self hmem
    | _ => simp

/-- The search finds the longest coefficient in front of the variable. -/
theorem search_append_var (pre : List Ch)
    (hvar : .var ∉ pre ++ w) (hq : asCoefficient w = some q)
    (hpre : ∀ p' x p, pre = p' ++ x :: p → asCoefficient (x :: p ++ w) = none) (r : List Ch) :
    search (pre ++ w ++ .var :: r) = some (q.1, q.2, pre ++ r) := by
  induction pre with
  | nil =>
    have hmatch := matchHere_append_var (by simpa using hvar) r (w := w)
    rw [hq] at hmatch
    rw [nil_append]
    rcases w with - | ⟨c, w⟩
    · rw [nil_append] at hmatch ⊢
      rw [search, hmatch]
      rfl
    · rw [cons_append] at hmatch ⊢
      rw [search, hmatch]
      rfl
  | cons x pre ih =>
    have hnone : asCoefficient (x :: (pre ++ w)) = none := hpre [] x pre rfl
    have hvar' : .var ∉ x :: (pre ++ w) := hvar
    have hmatch := matchHere_append_var hvar' r
    rw [hnone] at hmatch
    have hrest := ih (fun h => hvar' (mem_cons_of_mem _ h)) fun p' y p h =>
      hpre (x :: p') y p (by rw [h]; rfl)
    have hcons : x :: pre ++ w ++ .var :: r = x :: (pre ++ w ++ .var :: r) := by simp
    have hcons' : x :: (pre ++ w) ++ .var :: r = x :: (pre ++ w ++ .var :: r) := by simp
    rw [hcons'] at hmatch
    rw [hcons, search, hmatch, hrest]
    rfl

theorem asCoefficient_ne_none :
    asCoefficient w ≠ none ↔ (signOf (dropStar (digitsOf w).2)).2 = [] := by
  unfold asCoefficient
  split_ifs with h
  · exact iff_of_true (by simp) h
  · exact iff_of_false (by simp) h

/-- A coefficient without its first character is one. -/
theorem asCoefficient_tail (h : asCoefficient (c :: w) ≠ none) :
    asCoefficient w ≠ none := by
  rw [asCoefficient_ne_none] at h ⊢
  cases c with
  | digit d => exact h
  | star =>
    -- what follows the star is empty or a sign
    have h : (signOf w).2 = [] := h
    rcases w with - | ⟨x, w⟩
    · rfl
    · cases x with
      | plus => exact h
      | minus => exact h
      | _ => cases h
  | plus =>
    have h : w = [] := h
    rw [h]
    rfl
  | minus =>
    have h : w = [] := h
    rw [h]
    rfl
  | _ => cases h

/-- It is enough that one more character is none. -/
theorem search_spec (pre : List Ch)
    (hvar : .var ∉ pre ++ w) (hq : asCoefficient w = some q)
    (hlast : ∀ p x, pre = p ++ [x] → asCoefficient (x :: w) = none) (r : List Ch) :
    search (pre ++ w ++ .var :: r) = some (q.1, q.2, pre ++ r) := by
  refine search_append_var pre hvar hq ?_ r
  intro p' x p hpre
  by_contra hne
  rcases eq_nil_or_concat p with rfl | ⟨p, y, rfl⟩
  · exact hne (hlast p' x hpre)
  · rw [concat_eq_append] at hpre hne
    have hlast := hlast (p' ++ x :: p) y (by rw [hpre]; simp)
    have htail : ∀ p : List Ch, asCoefficient (p ++ (y :: w)) ≠ none →
        asCoefficient (y :: w) ≠ none := by
      intro p
      induction p with
      | nil => exact fun h => h
      | cons z p ih => exact fun h => ih (asCoefficient_tail h)
    refine htail (x :: p) ?_ hlast
    simpa using hne

/-! ## The integer that is left -/

/-- What a text of signs and numbers adds up to, from a sign and the digits read so far. -/
def total : Bool → List (Fin 10) → List Ch → ℤ
  | neg, ds, [] => if neg then -(natOf ds : ℤ) else natOf ds
  | neg, ds, .digit d :: r => total neg (ds ++ [d]) r
  | neg, ds, .plus :: r => (if neg then -(natOf ds : ℤ) else natOf ds) + total false [] r
  | neg, ds, .minus :: r => (if neg then -(natOf ds : ℤ) else natOf ds) + total true [] r
  | neg, ds, _ :: r => total neg ds r

/-- The numbers of a subscript. -/
def numbers (T : Terms) : ℤ := (T.map fun q => match q.2 with
  | .num c => q.1.value * c.val
  | _ => 0).sum

/-- A number with a sign. -/
def signedVal (neg : Bool) (ds : List (Fin 10)) : ℤ := if neg then -(natOf ds : ℤ) else natOf ds

theorem signedVal_nil (neg : Bool) : signedVal neg [] = 0 := by cases neg <;> rfl

theorem total_digits (neg : Bool) (ds : List (Fin 10)) (r : List Ch) :
    ∀ acc, total neg acc (ds.map Ch.digit ++ r) = total neg (acc ++ ds) r := by
  induction ds with
  | nil =>
    intro acc
    rw [map_nil, nil_append, append_nil]
  | cons d ds ih =>
    intro acc
    rw [map_cons, cons_append, total, ih, append_assoc]
    rfl

theorem total_plus_end (e : List Ch) : ∀ neg ds, total neg ds (e ++ [.plus]) = total neg ds e := by
  induction e with
  | nil =>
    intro neg ds
    simp [total, natOf]
  | cons c e ih =>
    intro neg ds
    cases c <;> simp [total, ih]

theorem total_dropWhile (e : List Ch) :
    total false [] (e.dropWhile fun c => c = .plus) = total false [] e := by
  induction e with
  | nil => rfl
  | cons c e ih =>
    by_cases hc : c = .plus
    · subst hc
      rw [dropWhile_cons_of_pos (by simp), ih]
      simp [total, natOf]
    · rw [dropWhile_cons_of_neg (by simpa using hc)]

theorem total_dropEnd (e : List Ch) :
    total false [] (e.reverse.dropWhile fun c => c = .plus).reverse = total false [] e := by
  rcases eq_nil_or_concat e with rfl | ⟨e, c, rfl⟩
  · rfl
  · rw [concat_eq_append, reverse_append, reverse_singleton, singleton_append]
    by_cases hc : c = .plus
    · subst hc
      rw [dropWhile_cons_of_pos (by simp), total_dropEnd e, total_plus_end]
    · rw [dropWhile_cons_of_neg (by simpa using hc)]
      simp
termination_by e.length

theorem star_mem_stripPlus (h : .star ∈ e) : .star ∈ stripPlus e := by
  have hdrop : ∀ e : List Ch, .star ∈ e → .star ∈ e.dropWhile fun c => c = .plus := by
    intro e
    induction e with
    | nil => exact fun h => h
    | cons c e ih =>
      intro h
      by_cases hc : c = .plus
      · subst hc
        rw [dropWhile_cons_of_pos (by simp)]
        exact ih (by simpa using h)
      · rw [dropWhile_cons_of_neg (by simpa using hc)]
        exact h
  unfold stripPlus
  rw [mem_reverse]
  refine hdrop _ ?_
  rw [mem_reverse]
  exact hdrop _ h

theorem total_stripPlus (e : List Ch) : total false [] (stripPlus e) = total false [] e := by
  unfold stripPlus
  rw [total_dropEnd, total_dropWhile]

theorem eq_digits_of {ds : List (Fin 10)} (h : digitsOf e = (ds, [])) :
    e = ds.map Ch.digit := by
  induction e generalizing ds with
  | nil =>
    cases h
    rfl
  | cons c e ih =>
    cases c with
    | digit d =>
      simp only [digitsOf, Prod.mk.injEq] at h
      obtain ⟨rfl, h⟩ := h
      rw [map_cons, ← ih (Prod.ext rfl h)]
    | _ => simp [digitsOf] at h

/-- What is read as an integer is the sum of the numbers, and no star is left. -/
theorem finish_spec {b : ℤ} (h : finish e = some b) :
    b = total false [] e ∧ .star ∉ e := by
  have hstar : .star ∉ stripPlus e → .star ∉ e := fun h h' => h (star_mem_stripPlus h')
  rw [← total_stripPlus]
  unfold finish at h
  by_cases hempty : stripPlus e = []
  · simp only [hempty, if_true] at h
    have h : some (0 : ℤ) = some b := h
    cases h
    rw [hempty]
    exact ⟨rfl, hstar (by simp [hempty])⟩
  · simp only [if_neg hempty] at h
    by_cases hminus : stripPlus e = [.minus]
    · rw [if_pos hminus] at h
      cases h
      rw [hminus]
      exact ⟨rfl, hstar (by simp [hminus])⟩
    · rw [if_neg hminus] at h
      split_ifs at h with hdigits hneg
      · cases h
        have hds : (signOf (stripPlus e)).2 = (digitsOf (signOf (stripPlus e)).2).1.map Ch.digit :=
          eq_digits_of (Prod.ext rfl hdigits.2)
        generalize (digitsOf (signOf (stripPlus e)).2).1 = ds at hds ⊢
        cases hstrip : stripPlus e with
        | nil => exact absurd hstrip hempty
        | cons c r =>
          rw [hstrip] at hds hneg hstar
          cases c with
          | minus =>
            have hr : r = ds.map Ch.digit := hds
            subst hr
            refine ⟨?_, hstar (by simp)⟩
            have htotal := total_digits true ds [] []
            rw [append_nil] at htotal
            simp [total, htotal, natOf]
          | _ => cases hneg
      · cases h
        have hds : (signOf (stripPlus e)).2 = (digitsOf (signOf (stripPlus e)).2).1.map Ch.digit :=
          eq_digits_of (Prod.ext rfl hdigits.2)
        generalize (digitsOf (signOf (stripPlus e)).2).1 = ds at hds ⊢
        have htotal := total_digits false ds [] []
        rw [append_nil] at htotal
        cases hstrip : stripPlus e with
        | nil => exact absurd hstrip hempty
        | cons c r =>
          rw [hstrip] at hds hneg hstar
          cases c with
          | minus => exact absurd rfl hneg
          | plus =>
            have hr : r = ds.map Ch.digit := hds
            subst hr
            refine ⟨?_, hstar (by simp)⟩
            simp [total, htotal, natOf]
          | digit d =>
            have hr : Ch.digit d :: r = ds.map Ch.digit := hds
            rw [hr] at hstar ⊢
            refine ⟨?_, hstar (by simp)⟩
            rw [htotal]
            simp [total]
          | _ =>
            have hr := congrArg List.head? hds
            cases ds <;> simp [signOf] at hr

end OffsetCopy
