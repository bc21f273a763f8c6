/-
# Masking the arms cpp would not take

`_mask_cpp` comments out the cpp directives of a source and the lines of the arms
that are not taken, so that the parser sees one configuration with its lines where
they were.  Whether an `#if` is taken is decided by rewriting its expression into
Python and evaluating that.
-/
import Mathlib.Data.Finset.Basic

open List

namespace Residency

/-! ## The expressions of `#if` -/

inductive Cmp
  | eq
  | lt
  | le
  | gt
  | ge
  deriving DecidableEq

def Cmp.holds : Cmp → ℕ → ℕ → Bool
  | .eq, a, b => decide (a = b)
  | .lt, a, b => decide (a < b)
  | .le, a, b => decide (a ≤ b)
  | .gt, a, b => decide (b < a)
  | .ge, a, b => decide (b ≤ a)

/-- The tokens of an `#if` expression.  A number may be written in a way Python does
not read (`010`, `1L`). -/
inductive Token
  | defined
  | ident (x : String)
  | number (n : ℕ) (python : Bool)
  | lpar
  | rpar
  | not
  | and
  | or
  | ne
  | cmp (c : Cmp)
  deriving DecidableEq

/-- The tokens of the rewritten expression. -/
inductive PyToken
  | number (n : ℕ)
  | bad
  | lpar
  | rpar
  | not
  | and
  | or
  | assign
  | cmp (c : Cmp)
  deriving DecidableEq

/-- `"1" if m.group(1) in defines else "0"` -/
def definedValue (defines : Finset String) (x : String) : Token :=
  .number (if x ∈ defines then 1 else 0) true

/-- The first substitution: `defined ( X )`. -/
def subDefinedCall (defines : Finset String) : List Token → List Token
  | .defined :: .lpar :: .ident x :: .rpar :: rest =>
      definedValue defines x :: subDefinedCall defines rest
  | t :: rest => t :: subDefinedCall defines rest
  | [] => []

/-- The second: `defined X`. -/
def subDefined (defines : Finset String) : List Token → List Token
  | .defined :: .ident x :: rest => definedValue defines x :: subDefined defines rest
  | t :: rest => t :: subDefined defines rest
  | [] => []

/-- The third, every identifier that is left to `0`, and the replacements of `&&`, `||`
and `!`; the last also splits a `!=`. -/
def pyTokens : List Token → List PyToken
  | [] => []
  | .defined :: rest | .ident _ :: rest => .number 0 :: pyTokens rest
  | .number n true :: rest => .number n :: pyTokens rest
  | .number _ false :: rest => .bad :: pyTokens rest
  | .lpar :: rest => .lpar :: pyTokens rest
  | .rpar :: rest => .rpar :: pyTokens rest
  | .not :: rest => .not :: pyTokens rest
  | .and :: rest => .and :: pyTokens rest
  | .or :: rest => .or :: pyTokens rest
  -- `a != b` becomes `a  not = b`, which is no expression
  | .ne :: rest => .not :: .assign :: pyTokens rest
  | .cmp c :: rest => .cmp c :: pyTokens rest

/-! ## Python's `eval` of it -/

/-- The value of a Python expression so far and the tokens behind it. -/
abbrev Parse := Option (ℕ × List PyToken)

mutual

/-- `or_test`; a value that is not 0 is true, and `or` returns one of its operands. -/
def pyOr : ℕ → List PyToken → Parse
  | 0, _ => none
  | fuel + 1, ts =>
      match pyAnd fuel ts with
      | some (v, rest) => pyOrRest fuel v rest
      | none => none

def pyOrRest : ℕ → ℕ → List PyToken → Parse
  | 0, _, _ => none
  | fuel + 1, v, .or :: ts =>
      match pyAnd fuel ts with
      | some (w, rest) => pyOrRest fuel (if v = 0 then w else v) rest
      | none => none
  | _ + 1, v, ts => some (v, ts)

/-- `and_test` -/
def pyAnd : ℕ → List PyToken → Parse
  | 0, _ => none
  | fuel + 1, ts =>
      match pyNot fuel ts with
      | some (v, rest) => pyAndRest fuel v rest
      | none => none

def pyAndRest : ℕ → ℕ → List PyToken → Parse
  | 0, _, _ => none
  | fuel + 1, v, .and :: ts =>
      match pyNot fuel ts with
      | some (w, rest) => pyAndRest fuel (if v = 0 then v else w) rest
      | none => none
  | _ + 1, v, ts => some (v, ts)

/-- `not_test`: `not` stands over a comparison, not inside one. -/
def pyNot : ℕ → List PyToken → Parse
  | 0, _ => none
  | fuel + 1, .not :: ts =>
      match pyNot fuel ts with
      | some (v, rest) => some (if v = 0 then 1 else 0, rest)
      | none => none
  | fuel + 1, ts => pyComparison fuel ts

/-- `comparison`: one operand, or a chain of comparisons. -/
def pyComparison : ℕ → List PyToken → Parse
  | 0, _ => none
  | fuel + 1, ts =>
      match pyAtom fuel ts with
      | some (v, .cmp c :: rest) => pyChain fuel true v c rest
      | other => other

/-- `left c right ...`: every comparison of the chain has to hold. -/
def pyChain : ℕ → Bool → ℕ → Cmp → List PyToken → Parse
  | 0, _, _, _, _ => none
  | fuel + 1, acc, left, c, ts =>
      match pyAtom fuel ts with
      | some (v, .cmp c' :: rest) => pyChain fuel (acc && c.holds left v) v c' rest
      | some (v, rest) => some (if acc && c.holds left v then 1 else 0, rest)
      | none => none

def pyAtom : ℕ → List PyToken → Parse
  | _, .number n :: rest => some (n, rest)
  | fuel + 1, .lpar :: ts =>
      match pyOr fuel ts with
      | some (v, .rpar :: rest) => some (v, rest)
      | _ => none
  | _, _ => none

end

/-- `bool(eval(e))`; what does not parse raises, which is false. -/
def pyEval (ts : List PyToken) : Bool :=
  match pyOr (8 * ts.length + 8) ts with
  | some (v, []) => decide (v ≠ 0)
  | _ => false

/-- `_cpp_expr_true` -/
def cppExprTrue (expr : List Token) (defines : Finset String) : Bool :=
  pyEval (pyTokens (subDefined defines (subDefinedCall defines expr)))

/-! ## The masking -/

/-- A line of a source: one that is no directive, or a conditional. -/
inductive Line
  | text (s : String)
  | ifdef (x : String)
  | ifndef (x : String)
  | if_ (expr : List Token)
  | elif_ (expr : List Token)
  | else_
  | endif
  deriving DecidableEq

/-- A line of the output: a line as it is, or behind a `!`. -/
inductive Out
  | live (line : Line)
  | masked (line : Line)
  deriving DecidableEq

/-- `[taken_now, taken_ever]` of every open `#if`, the innermost first. -/
abbrev Stack := List (Bool × Bool)

/-- `all(f[0] for f in stack)` -/
def live (stack : Stack) : Bool := stack.all Prod.fst

/-- The stack behind a line. -/
def stackStep (defines : Finset String) (stack : Stack) : Line → Stack
  | .text _ => stack
  | .ifdef x => (decide (x ∈ defines), decide (x ∈ defines)) :: stack
  | .ifndef x => (decide (x ∉ defines), decide (x ∉ defines)) :: stack
  | .if_ e => (cppExprTrue e defines, cppExprTrue e defines) :: stack
  | .elif_ e =>
      match stack with
      | (_, ever) :: outer =>
          let taken := !ever && cppExprTrue e defines
          (taken, ever || taken) :: outer
      | [] => []
  | .else_ =>
      match stack with
      | (_, ever) :: outer => (!ever, true) :: outer
      | [] => []
  | .endif => stack.tail

/-- What a line becomes. -/
def maskLine (stack : Stack) : Line → Out
  | .text s => if live stack then .live (.text s) else .masked (.text s)
  | directive => .masked directive

/-- `_mask_cpp`, from some open `#if`s. -/
def maskFrom (defines : Finset String) : Stack → List Line → List Out
  | _, [] => []
  | stack, l :: rest => maskLine stack l :: maskFrom defines (stackStep defines stack l) rest

/-- `_mask_cpp` -/
def maskCpp (source : List Line) (defines : Finset String) : List Out :=
  maskFrom defines [] source

end Residency

/-
# What cpp keeps

cpp reads an `#if` expression by the precedences of C and gives a defined name the
value 1, and it keeps the first arm of a group whose condition holds.  The masking
keeps what cpp keeps exactly when, group by group, the two take the same arm, or
two arms without a line to show.
-/

namespace Residency

/-! ## The expressions as cpp reads them -/

/-- An `#if` expression.  `defined` may be written with or without parentheses. -/
inductive Expr
  | defined (x : String) (call : Bool)
  | ident (x : String)
  | number (n : ℕ) (python : Bool)
  | not (e : Expr)
  | and (a b : Expr)
  | or (a b : Expr)
  | ne (a b : Expr)
  | cmp (c : Cmp) (a b : Expr)
  | paren (e : Expr)

/-- `a == b` and `a < b` are of two levels in C. -/
def Cmp.level : Cmp → ℕ
  | .eq => 2
  | _ => 3

/-- Tokens in parentheses, where their level asks for them. -/
def wrap (needed : Bool) (ts : List Token) : List Token :=
  bif needed then .lpar :: ts ++ [.rpar] else ts

/-- The tokens of an expression where one of the level is expected. -/
def Expr.tokens : ℕ → Expr → List Token
  | _, .defined x true => [.defined, .lpar, .ident x, .rpar]
  | _, .defined x false => [.defined, .ident x]
  | _, .ident x => [.ident x]
  | _, .number n python => [.number n python]
  | p, .not e => wrap (decide (4 < p)) (.not :: e.tokens 4)
  | p, .and a b => wrap (decide (1 < p)) (a.tokens 1 ++ .and :: b.tokens 2)
  | p, .or a b => wrap (decide (0 < p)) (a.tokens 0 ++ .or :: b.tokens 1)
  | p, .ne a b => wrap (decide (2 < p)) (a.tokens 2 ++ .ne :: b.tokens 3)
  | p, .cmp c a b =>
      wrap (decide (c.level < p)) (a.tokens c.level ++ .cmp c :: b.tokens (c.level + 1))
  | _, .paren e => .lpar :: e.tokens 0 ++ [.rpar]

/-- The value of a truth. -/
def truth (b : Bool) : ℕ := bif b then 1 else 0

/-- The value cpp gives an expression. -/
def Expr.value (defines : Finset String) : Expr → ℕ
  | .defined x _ => truth (decide (x ∈ defines))
  | .ident x => truth (decide (x ∈ defines))
  | .number n _ => n
  | .not e => truth (decide (e.value defines = 0))
  | .and a b => truth (decide (a.value defines ≠ 0) && decide (b.value defines ≠ 0))
  | .or a b => truth (decide (a.value defines ≠ 0) || decide (b.value defines ≠ 0))
  | .ne a b => truth (decide (a.value defines ≠ b.value defines))
  | .cmp c a b => truth (c.holds (a.value defines) (b.value defines))
  | .paren e => e.value defines

/-- Whether cpp takes an arm with the expression. -/
def cppTakes (defines : Finset String) (e : Expr) : Bool := decide (e.value defines ≠ 0)

/-- Whether `_mask_cpp` does. -/
def maskTakes (defines : Finset String) (e : Expr) : Bool := cppExprTrue (e.tokens 0) defines

/-! ## Balanced sources -/

/-- What opens a group. -/
inductive Opener
  | ifdef (x : String)
  | ifndef (x : String)
  | if_ (e : Expr)

mutual

/-- The lines of a source with balanced conditionals, nested to any depth. -/
inductive Body
  | nil
  | text (s : String) (rest : Body)
  | group (o : Opener) (first : Body) (arms : Arms) (rest : Body)

/-- The arms behind the first. -/
inductive Arms
  | endif
  | else_ (b : Body)
  | elif_ (e : Expr) (b : Body) (rest : Arms)

end

def Opener.line : Opener → Line
  | .ifdef x => .ifdef x
  | .ifndef x => .ifndef x
  | .if_ e => .if_ (e.tokens 0)

mutual

/-- The lines of a source. -/
def Body.lines : Body → List Line
  | .nil => []
  | .text s rest => .text s :: rest.lines
  | .group o first arms rest => o.line :: (first.lines ++ (arms.lines ++ rest.lines))

@[inherit_doc Body.lines]
def Arms.lines : Arms → List Line
  | .endif => [.endif]
  | .else_ b => .else_ :: (b.lines ++ [.endif])
  | .elif_ e b rest => .elif_ (e.tokens 0) :: (b.lines ++ rest.lines)

end

section Kept

variable (defines : Finset String) (takes : Expr → Bool)

/-- Whether the first arm of a group is taken. -/
def Opener.holds : Opener → Bool
  | .ifdef x => decide (x ∈ defines)
  | .ifndef x => decide (x ∉ defines)
  | .if_ e => takes e

mutual

/-- For every line whether it is kept, by a preprocessor that takes the arms `takes`
says; `on` where the lines around are kept. -/
def Body.kept (on : Bool) : Body → List Bool
  | .nil => []
  | .text _ rest => on :: rest.kept on
  | .group o first arms rest =>
      let taken := o.holds defines takes
      false :: (first.kept (on && taken) ++ (arms.kept on taken ++ rest.kept on))

/-- `taken` behind an arm that was taken. -/
def Arms.kept (on taken : Bool) : Arms → List Bool
  | .endif => [false]
  | .else_ b => false :: (b.kept (on && !taken) ++ [false])
  | .elif_ e b rest =>
      false :: (b.kept (on && (!taken && takes e)) ++ rest.kept on (taken || takes e))

end

mutual

/-- Some line is kept. -/
def Body.shows : Body → Bool
  | .nil => false
  | .text _ _ => true
  | .group o first arms rest =>
      (bif o.holds defines takes then first.shows else arms.shows) || rest.shows

/-- Some line of the arm taken is kept. -/
def Arms.shows : Arms → Bool
  | .endif => false
  | .else_ b => b.shows
  | .elif_ e b rest => bif takes e then b.shows else rest.shows

end

end Kept

section Agree

variable (defines : Finset String) (takes takes' : Expr → Bool)

mutual

/-- In every group that is reached, two preprocessors take the same arm, or two arms
none of which shows a line. -/
def Body.Agree : Body → Prop
  | .nil => True
  | .text _ rest => rest.Agree
  | .group o first arms rest =>
      (match o.holds defines takes, o.holds defines takes' with
        | true, true => first.Agree
        | true, false => first.shows defines takes = false ∧ arms.shows defines takes' = false
        | false, true => arms.shows defines takes = false ∧ first.shows defines takes' = false
        | false, false => arms.Agree) ∧ rest.Agree

@[inherit_doc Body.Agree]
def Arms.Agree : Arms → Prop
  | .endif => True
  | .else_ b => b.Agree
  | .elif_ e b rest =>
      match takes e, takes' e with
      | true, true => b.Agree
      | true, false => b.shows defines takes = false ∧ rest.shows defines takes' = false
      | false, true => rest.shows defines takes = false ∧ b.shows defines takes' = false
      | false, false => rest.Agree

end

end Agree

/-! ## The output -/

/-- The line stands in the output as it is. -/
def Out.isLive : Out → Bool
  | .live _ => true
  | .masked _ => false

/-- The line of the source that stands there, behind a placeholder or not. -/
def Out.line : Out → Line
  | .live l => l
  | .masked l => l

/-- `_mask_cpp` keeps live exactly what cpp keeps, and every line stays where it was. -/
def KeepsAsCpp (defines : Finset String) (b : Body) : Prop :=
  (maskCpp b.lines defines).map Out.isLive = b.kept defines (cppTakes defines) true ∧
    (maskCpp b.lines defines).map Out.line = b.lines

/-- No line is lost or moved. -/
theorem map_line_maskFrom (defines : Finset String) (ls : List Line) (stack : Stack) :
    (maskFrom defines stack ls).map Out.line = ls := by
  induction ls generalizing stack with
  | nil => rfl
  | cons l ls ih =>
    have hline : (maskLine stack l).line = l := by
      cases l with
      | text s => rw [maskLine]; split <;> rfl
      | _ => rfl
    rw [maskFrom, map_cons, ih, hline]

/-! ## The stack machine takes arms -/

variable {defines : Finset String}

theorem live_cons (f : Bool × Bool) (stack : Stack) : live (f :: stack) = (f.1 && live stack) := rfl

theorem stackStep_opener (o : Opener) (stack : Stack) :
    stackStep defines stack o.line
      = (o.holds defines (maskTakes defines), o.holds defines (maskTakes defines)) :: stack := by
  cases o <;> rfl

theorem maskLine_opener (o : Opener) (stack : Stack) :
    (maskLine stack o.line).isLive = false := by
  cases o <;> rfl

mutual

/-- The lines of a body are live as `kept` says, and the stack is as it was behind them. -/
theorem Body.map_isLive (b : Body) (stack : Stack) (tail : List Line) :
    (maskFrom defines stack (b.lines ++ tail)).map Out.isLive
      = b.kept defines (maskTakes defines) (live stack)
        ++ (maskFrom defines stack tail).map Out.isLive := by
  cases b with
  | nil => rfl
  | text s rest =>
    rw [Body.lines, cons_append, maskFrom, map_cons, Body.kept, cons_append]
    congr 1
    · rw [maskLine]
      cases live stack <;> rfl
    · exact rest.map_isLive stack tail
  | group o first arms rest =>
    rw [Body.lines, cons_append, maskFrom, map_cons, stackStep_opener, maskLine_opener,
      append_assoc, append_assoc, first.map_isLive, arms.map_isLive, rest.map_isLive,
      Body.kept, live_cons, Bool.and_comm]
    simp

/-- The arms of an open group, `ever` telling whether one was taken. -/
theorem Arms.map_isLive (arms : Arms) (now ever : Bool) (stack : Stack) (tail : List Line) :
    (maskFrom defines ((now, ever) :: stack) (arms.lines ++ tail)).map Out.isLive
      = arms.kept defines (maskTakes defines) (live stack) ever
        ++ (maskFrom defines stack tail).map Out.isLive := by
  cases arms with
  | endif => rfl
  | else_ b =>
    rw [Arms.lines, cons_append, maskFrom, map_cons, append_assoc, b.map_isLive]
    rw [show stackStep defines ((now, ever) :: stack) .else_ = (!ever, true) :: stack from rfl,
      live_cons, Bool.and_comm, Arms.kept]
    simp [maskFrom, maskLine, stackStep, Out.isLive]
  | elif_ e b rest =>
    rw [Arms.lines, cons_append, maskFrom, map_cons, append_assoc, b.map_isLive]
    rw [show stackStep defines ((now, ever) :: stack) (.elif_ (e.tokens 0))
        = (!ever && maskTakes defines e, ever || (!ever && maskTakes defines e)) :: stack from rfl,
      live_cons, Bool.and_comm, rest.map_isLive, Arms.kept]
    have hever : (ever || (!ever && maskTakes defines e)) = (ever || maskTakes defines e) := by
      cases ever <;> simp
    rw [hever]
    simp [maskLine, Out.isLive]

end

/-! ## Lines that are not kept -/

variable (takes takes' : Expr → Bool)

mutual

/-- Nothing is kept of a body that is off. -/
theorem Body.kept_off (b : Body) :
    b.kept defines takes false = List.replicate b.lines.length false := by
  cases b with
  | nil => rfl
  | text s rest => rw [Body.kept, rest.kept_off, Body.lines, length_cons, replicate_succ]
  | group o first arms rest =>
    rw [Body.kept, Bool.false_and, first.kept_off, arms.kept_off, rest.kept_off, Body.lines,
      length_cons, length_append, length_append, replicate_succ,
      replicate_add, replicate_add]

/-- Nothing is kept of the arms of a group that is off. -/
theorem Arms.kept_off (arms : Arms) (taken : Bool) :
    arms.kept defines takes false taken = List.replicate arms.lines.length false := by
  cases arms with
  | endif => rfl
  | else_ b =>
    rw [Arms.kept, Bool.false_and, b.kept_off, Arms.lines, length_cons, length_append,
      replicate_succ, replicate_add]
    rfl
  | elif_ e b rest =>
    rw [Arms.kept, Bool.false_and, b.kept_off, rest.kept_off, Arms.lines, length_cons,
      length_append, replicate_succ, replicate_add]

end

/-- Nothing is kept of the arms behind the one taken. -/
theorem Arms.kept_taken (arms : Arms) (on : Bool) :
    arms.kept defines takes on true = List.replicate arms.lines.length false := by
  cases arms with
  | endif => rfl
  | else_ b =>
    rw [Arms.kept, Bool.not_true, Bool.and_false, b.kept_off, Arms.lines, length_cons,
      length_append, replicate_succ, replicate_add]
    rfl
  | elif_ e b rest =>
    rw [Arms.kept, Bool.not_true, Bool.false_and, Bool.and_false, b.kept_off, Bool.true_or,
      rest.kept_taken on, Arms.lines, length_cons, length_append, replicate_succ,
      replicate_add]

mutual

theorem Body.length_kept (b : Body) (on : Bool) :
    (b.kept defines takes on).length = b.lines.length := by
  cases b with
  | nil => rfl
  | text s rest => simp [Body.kept, Body.lines, rest.length_kept]
  | group o first arms rest =>
    simp [Body.kept, Body.lines, first.length_kept, arms.length_kept, rest.length_kept]

theorem Arms.length_kept (arms : Arms) (on taken : Bool) :
    (arms.kept defines takes on taken).length = arms.lines.length := by
  cases arms with
  | endif => rfl
  | else_ b => simp [Arms.kept, Arms.lines, b.length_kept]
  | elif_ e b rest => simp [Arms.kept, Arms.lines, b.length_kept, rest.length_kept]

end

/-- Two lists in two parts of the same lengths are equal when the parts are. -/
theorem append_eq_iff {α : Type} {a b c d : List α} (h : a.length = c.length) :
    a ++ b = c ++ d ↔ a = c ∧ b = d := by
  constructor
  · intro heq
    exact append_inj heq h
  · rintro ⟨rfl, rfl⟩
    rfl

mutual

/-- A body keeps nothing exactly when it shows no line. -/
theorem Body.kept_eq_replicate (b : Body) :
    b.kept defines takes true = List.replicate b.lines.length false ↔
      b.shows defines takes = false := by
  cases b with
  | nil => simp [Body.kept, Body.lines, Body.shows]
  | text s rest => simp [Body.kept, Body.lines, Body.shows, replicate_succ]
  | group o first arms rest =>
    rw [Body.kept, Body.lines, length_cons, length_append, length_append,
      replicate_succ, replicate_add, replicate_add, cons_inj_right,
      append_eq_iff (by simp [first.length_kept]), append_eq_iff (by simp [arms.length_kept]),
      rest.kept_eq_replicate, Body.shows, Bool.or_eq_false_iff, Bool.true_and]
    cases hholds : o.holds defines takes with
    | true =>
      rw [first.kept_eq_replicate, Arms.kept_taken]
      simp
    | false =>
      rw [first.kept_off, arms.kept_eq_replicate]
      simp

theorem Arms.kept_eq_replicate (arms : Arms) :
    arms.kept defines takes true false = List.replicate arms.lines.length false ↔
      arms.shows defines takes = false := by
  cases arms with
  | endif => simp [Arms.kept, Arms.lines, Arms.shows]
  | else_ b =>
    rw [Arms.kept, Arms.lines, length_cons, length_append, replicate_succ,
      replicate_add, cons_inj_right, append_eq_iff (by simp [b.length_kept]),
      Arms.shows, ← b.kept_eq_replicate]
    simp
  | elif_ e b rest =>
    rw [Arms.kept, Arms.lines, length_cons, length_append, replicate_succ,
      replicate_add, cons_inj_right, append_eq_iff (by simp [b.length_kept]),
      Arms.shows, Bool.not_false, Bool.true_and, Bool.true_and, Bool.false_or]
    cases takes e with
    | true =>
      rw [b.kept_eq_replicate, Arms.kept_taken]
      simp
    | false =>
      rw [b.kept_off, rest.kept_eq_replicate]
      simp

end

/-! ## Two preprocessors keep the same lines -/

mutual

/-- **Two preprocessors keep the same lines of a body exactly when they agree on its groups.** -/
theorem Body.kept_eq_iff (b : Body) :
    b.kept defines takes true = b.kept defines takes' true ↔ b.Agree defines takes takes' := by
  cases b with
  | nil => simp [Body.kept, Body.Agree]
  | text s rest => rw [Body.kept, Body.kept, cons_inj_right, rest.kept_eq_iff, Body.Agree]
  | group o first arms rest =>
    rw [Body.kept, Body.kept, cons_inj_right,
      append_eq_iff (by rw [first.length_kept, first.length_kept]),
      append_eq_iff (by rw [arms.length_kept, arms.length_kept]), rest.kept_eq_iff, Body.Agree,
      Bool.true_and, Bool.true_and, ← and_assoc]
    refine and_congr_left fun _ => ?_
    -- the arms the two take
    cases o.holds defines takes with
    | true =>
      cases o.holds defines takes' with
      | true => simp [first.kept_eq_iff, Arms.kept_taken]
      | false =>
        rw [first.kept_off, Arms.kept_taken, first.kept_eq_replicate, eq_comm (b := Arms.kept ..),
          arms.kept_eq_replicate]
    | false =>
      cases o.holds defines takes' with
      | true =>
        rw [first.kept_off, Arms.kept_taken, arms.kept_eq_replicate, eq_comm (b := Body.kept ..),
          first.kept_eq_replicate, and_comm]
      | false => rw [first.kept_off, first.kept_off, arms.kept_eq_iff]; simp

theorem Arms.kept_eq_iff (arms : Arms) :
    arms.kept defines takes true false = arms.kept defines takes' true false ↔
      arms.Agree defines takes takes' := by
  cases arms with
  | endif => simp [Arms.kept, Arms.Agree]
  | else_ b =>
    rw [Arms.kept, Arms.kept, cons_inj_right,
      append_eq_iff (by rw [b.length_kept, b.length_kept]), Arms.Agree, ← b.kept_eq_iff]
    simp
  | elif_ e b rest =>
    rw [Arms.kept, Arms.kept, cons_inj_right,
      append_eq_iff (by rw [b.length_kept, b.length_kept]), Arms.Agree, Bool.not_false,
      Bool.true_and, Bool.true_and, Bool.true_and, Bool.true_and, Bool.false_or, Bool.false_or]
    cases takes e with
    | true =>
      cases takes' e with
      | true => simp [b.kept_eq_iff, Arms.kept_taken]
      | false =>
        rw [b.kept_off, Arms.kept_taken, b.kept_eq_replicate, eq_comm (b := Arms.kept ..),
          rest.kept_eq_replicate]
    | false =>
      cases takes' e with
      | true =>
        rw [b.kept_off, Arms.kept_taken, rest.kept_eq_replicate, eq_comm (b := Body.kept ..),
          b.kept_eq_replicate, and_comm]
      | false => rw [b.kept_off, b.kept_off, rest.kept_eq_iff]; simp

end

/-! ## Expressions both read alike -/

/-- The expressions without an operator of their own. -/
def Expr.atomic : Expr → Bool
  | .defined _ _ | .ident _ | .number _ _ | .paren _ => true
  | _ => false

/-- Python gives the rewritten expression the truth cpp gives it, and with `exact` the same
value: no `!=`, no defined name on its own, no number Python does not read, and a comparison
only of operands without operators outside parentheses.  The value of `&&` and `||` is one
of their operands in Python, so only their truth is alike. -/
def Expr.Alike (defines : Finset String) : Bool → Expr → Prop
  | _, .defined _ _ => True
  | _, .ident x => x ∉ defines
  | _, .number _ python => python = true
  | _, .not e => e.Alike defines false
  | exact_, .and a b => exact_ = false ∧ a.Alike defines false ∧ b.Alike defines false
  | exact_, .or a b => exact_ = false ∧ a.Alike defines false ∧ b.Alike defines false
  | _, .ne _ _ => False
  | _, .cmp _ a b =>
      (a.atomic = true ∧ a.Alike defines true) ∧ (b.atomic = true ∧ b.Alike defines true)
  | exact_, .paren e => e.Alike defines exact_

/-- The level of the operator of an expression. -/
def Expr.level : Expr → ℕ
  | .or _ _ => 0
  | .and _ _ => 1
  | .ne _ _ => 2
  | .cmp c _ _ => c.level
  | .not _ => 4
  | _ => 5

/-- Rewritten tokens in parentheses, where their level asks for them. -/
def pyWrap (needed : Bool) (ts : List PyToken) : List PyToken :=
  bif needed then .lpar :: (ts ++ [.rpar]) else ts

/-- The rewritten tokens of an expression where one of the level is expected. -/
def Expr.py (defines : Finset String) : ℕ → Expr → List PyToken
  | _, .defined x _ => [.number (if x ∈ defines then 1 else 0)]
  | _, .ident _ => [.number 0]
  | _, .number n python => [bif python then .number n else .bad]
  | p, .not e => pyWrap (decide (4 < p)) (.not :: e.py defines 4)
  | p, .and a b => pyWrap (decide (1 < p)) (a.py defines 1 ++ .and :: b.py defines 2)
  | p, .or a b => pyWrap (decide (0 < p)) (a.py defines 0 ++ .or :: b.py defines 1)
  | p, .ne a b =>
      pyWrap (decide (2 < p)) (a.py defines 2 ++ .not :: .assign :: b.py defines 3)
  | p, .cmp c a b =>
      pyWrap (decide (c.level < p))
        (a.py defines c.level ++ .cmp c :: b.py defines (c.level + 1))
  | _, .paren e => .lpar :: (e.py defines 0 ++ [.rpar])

/-- The three substitutions and the replacements. -/
def rewritten (defines : Finset String) (ts : List Token) : List PyToken :=
  pyTokens (subDefined defines (subDefinedCall defines ts))

/-- The rewriting of the tokens of an expression. -/
theorem rewritten_tokens (defines : Finset String) (e : Expr) (p : ℕ) (rest : List Token) :
    rewritten defines (e.tokens p ++ rest) = e.py defines p ++ rewritten defines rest := by
  have hwrap : ∀ (needed : Bool) (ts : List Token) (ps : List PyToken),
      (∀ rest, rewritten defines (ts ++ rest) = ps ++ rewritten defines rest) →
      ∀ rest, rewritten defines (wrap needed ts ++ rest) = pyWrap needed ps ++
        rewritten defines rest := by
    intro needed ts ps h rest
    cases needed with
    | false => exact h rest
    | true =>
      have hinner := h (.rpar :: rest)
      simp only [rewritten] at hinner
      simp [wrap, pyWrap, rewritten, subDefinedCall, subDefined, pyTokens, hinner]
  induction e generalizing p rest with
  | defined x call =>
    cases call <;>
      simp [Expr.tokens, Expr.py, rewritten, subDefinedCall, subDefined, pyTokens, definedValue]
  | ident x => simp [Expr.tokens, Expr.py, rewritten, subDefinedCall, subDefined, pyTokens]
  | number n python =>
    cases python <;> simp [Expr.tokens, Expr.py, rewritten, subDefinedCall, subDefined, pyTokens]
  | not e ih =>
    rw [Expr.tokens, Expr.py]
    refine hwrap _ _ _ (fun rest => ?_) rest
    have hinner := ih 4 rest
    simp only [rewritten] at hinner
    simp [rewritten, subDefinedCall, subDefined, pyTokens, hinner]
  | and a b iha ihb =>
    rw [Expr.tokens, Expr.py]
    refine hwrap _ _ _ (fun rest => ?_) rest
    have hb := ihb 2 rest
    simp only [rewritten] at hb
    rw [append_assoc, iha, cons_append]
    simp [rewritten, subDefinedCall, subDefined, pyTokens, hb]
  | or a b iha ihb =>
    rw [Expr.tokens, Expr.py]
    refine hwrap _ _ _ (fun rest => ?_) rest
    have hb := ihb 1 rest
    simp only [rewritten] at hb
    rw [append_assoc, iha, cons_append]
    simp [rewritten, subDefinedCall, subDefined, pyTokens, hb]
  | ne a b iha ihb =>
    rw [Expr.tokens, Expr.py]
    refine hwrap _ _ _ (fun rest => ?_) rest
    have hb := ihb 3 rest
    simp only [rewritten] at hb
    rw [append_assoc, iha, cons_append]
    simp [rewritten, subDefinedCall, subDefined, pyTokens, hb]
  | cmp c a b iha ihb =>
    rw [Expr.tokens, Expr.py]
    refine hwrap _ _ _ (fun rest => ?_) rest
    have hb := ihb (c.level + 1) rest
    simp only [rewritten] at hb
    rw [append_assoc, iha, cons_append]
    simp [rewritten, subDefinedCall, subDefined, pyTokens, hb]
  | paren e ih =>
    have hinner := ih 0 (.rpar :: rest)
    simp only [rewritten] at hinner
    simp [Expr.tokens, Expr.py, rewritten, subDefinedCall, subDefined, pyTokens, hinner]

/-- Where a higher level is expected, the tokens stand in parentheses. -/
theorem Expr.py_eq (defines : Finset String) (e : Expr) (p : ℕ) :
    e.py defines p = pyWrap (decide (e.level < p) && !e.atomic) (e.py defines 0) := by
  cases e <;> simp [Expr.py, Expr.level, Expr.atomic, pyWrap] <;> rfl

/-! ## Parsing them -/

/-- What Python makes of an expression: its truth, or its value. -/
def Expr.Reads (defines : Finset String) (exact_ : Bool) (e : Expr) (v : ℕ) : Prop :=
  if exact_ then v = e.value defines else (v = 0 ↔ e.value defines = 0)

theorem Expr.Reads.of_eq {exact_ : Bool} {e : Expr} {v : ℕ} (h : v = e.value defines) :
    e.Reads defines exact_ v := by
  cases exact_ with
  | true => exact h
  | false => exact iff_of_eq (congrArg (· = 0) h)

theorem Expr.Reads.truth {exact_ : Bool} {e : Expr} {v : ℕ} (h : e.Reads defines exact_ v) :
    v = 0 ↔ e.value defines = 0 := by
  cases exact_ with
  | true => exact iff_of_eq (congrArg (· = 0) h)
  | false => exact h

/-- No comparison goes on behind. -/
def NoCmp (rest : List PyToken) : Prop := ∀ c ts, rest ≠ .cmp c :: ts

/-- No `and` goes on behind. -/
def NoAnd (rest : List PyToken) : Prop := ∀ ts, rest ≠ .and :: ts

section Parses

variable (defines : Finset String) (exact_ : Bool) (e : Expr) (ts : List PyToken)

/-- `atom` reads the tokens, with the fuel `eval` has for them. -/
def ParsesAtom : Prop :=
  ∀ fuel rest, 8 * ts.length ≤ fuel →
    ∃ v, pyAtom fuel (ts ++ rest) = some (v, rest) ∧ e.Reads defines exact_ v

def ParsesNot : Prop :=
  ∀ fuel rest, NoCmp rest → 8 * ts.length + 2 ≤ fuel →
    ∃ v, pyNot fuel (ts ++ rest) = some (v, rest) ∧ e.Reads defines exact_ v

/-- `and_test` has read the tokens and goes on behind them. -/
def ParsesAnd : Prop :=
  ∀ fuel rest, NoCmp rest → 8 * ts.length + 3 ≤ fuel →
    ∃ f v, fuel ≤ f + ts.length ∧ pyAnd fuel (ts ++ rest) = pyAndRest f v rest ∧
      e.Reads defines exact_ v

@[inherit_doc ParsesAnd]
def ParsesOr : Prop :=
  ∀ fuel rest, NoCmp rest → NoAnd rest → 8 * ts.length + 4 ≤ fuel →
    ∃ f v, fuel ≤ f + ts.length ∧ pyOr fuel (ts ++ rest) = pyOrRest f v rest ∧
      e.Reads defines exact_ v

end Parses

variable {exact_ : Bool} {e : Expr} {ts : List PyToken}

/-- What `atom` reads begins with a number or a parenthesis. -/
theorem ParsesAtom.head (h : ParsesAtom defines exact_ e ts) :
    ∃ t r, ts = t :: r ∧ t ≠ .not := by
  obtain ⟨v, hread, -⟩ := h (8 * ts.length) [] le_rfl
  rw [append_nil] at hread
  cases ts with
  | nil => simp [pyAtom] at hread
  | cons t r =>
    refine ⟨t, r, rfl, ?_⟩
    rintro rfl
    cases hlen : 8 * (PyToken.not :: r).length <;> rw [hlen] at hread <;> simp [pyAtom] at hread

theorem pyNot_of_head {t : PyToken} (ht : t ≠ .not) (f : ℕ) (r : List PyToken) :
    pyNot (f + 1) (t :: r) = pyComparison f (t :: r) := by
  cases t <;> first | rfl | exact absurd rfl ht

/-- One operand is a comparison where none goes on. -/
theorem ParsesAtom.parsesNot (h : ParsesAtom defines exact_ e ts) :
    ParsesNot defines exact_ e ts := by
  intro fuel rest hcmp hfuel
  obtain ⟨t, r, hts, hnot⟩ := h.head
  obtain ⟨f, rfl⟩ : ∃ f, fuel = f + 2 := ⟨fuel - 2, by omega⟩
  obtain ⟨v, hread, hv⟩ := h f rest (by omega)
  refine ⟨v, ?_, hv⟩
  have hcomparison : pyComparison (f + 1) (ts ++ rest) = some (v, rest) := by
    rw [pyComparison, hread]
    cases rest with
    | nil => rfl
    | cons t' r' =>
      cases t' with
      | cmp c => exact absurd rfl (hcmp c r')
      | _ => rfl
  rw [← hcomparison, hts, cons_append, pyNot_of_head hnot]

theorem ParsesNot.ne_nil (h : ParsesNot defines exact_ e ts) : ts ≠ [] := by
  rintro rfl
  obtain ⟨v, hread, -⟩ := h 2 [] (fun c r => by simp) (by simp)
  simp [pyNot, pyComparison, pyAtom] at hread

theorem ParsesNot.parsesAnd (h : ParsesNot defines exact_ e ts) :
    ParsesAnd defines exact_ e ts := by
  intro fuel rest hcmp hfuel
  have hpos : 0 < ts.length := length_pos_iff.mpr h.ne_nil
  obtain ⟨f, rfl⟩ : ∃ f, fuel = f + 1 := ⟨fuel - 1, by omega⟩
  obtain ⟨v, hread, hv⟩ := h f rest hcmp (by omega)
  exact ⟨f, v, by omega, by rw [pyAnd, hread], hv⟩

theorem pyAndRest_done {rest : List PyToken} (hand : NoAnd rest) (f v : ℕ) :
    pyAndRest (f + 1) v rest = some (v, rest) := by
  cases rest with
  | nil => rfl
  | cons t r =>
    cases t with
    | and => exact absurd rfl (hand r)
    | _ => rfl

theorem pyOrRest_rpar (f v : ℕ) (rest : List PyToken) :
    pyOrRest (f + 1) v (.rpar :: rest) = some (v, .rpar :: rest) := rfl

theorem ParsesAnd.ne_nil (h : ParsesAnd defines exact_ e ts) : ts ≠ [] := by
  rintro rfl
  obtain ⟨f, v, hf, hread, -⟩ := h 3 [] (fun c r => by simp) (by simp)
  obtain ⟨g, rfl⟩ : ∃ g, f = g + 1 := ⟨f - 1, by simp at hf; omega⟩
  simp [pyAnd, pyNot, pyComparison, pyAtom, pyAndRest] at hread

theorem ParsesAnd.parsesOr (h : ParsesAnd defines exact_ e ts) :
    ParsesOr defines exact_ e ts := by
  intro fuel rest hcmp hand hfuel
  have hpos : 0 < ts.length := length_pos_iff.mpr h.ne_nil
  obtain ⟨f, rfl⟩ : ∃ f, fuel = f + 1 := ⟨fuel - 1, by omega⟩
  obtain ⟨g, v, hg, hread, hv⟩ := h f rest hcmp (by omega)
  obtain ⟨g, rfl⟩ : ∃ g', g = g' + 1 := ⟨g - 1, by omega⟩
  refine ⟨f, v, by omega, ?_, hv⟩
  rw [pyOr, hread, pyAndRest_done hand]

/-- In parentheses an expression is an operand. -/
theorem ParsesOr.parsesAtom (h : ParsesOr defines exact_ e ts) :
    ParsesAtom defines exact_ e (.lpar :: (ts ++ [.rpar])) := by
  intro fuel rest hfuel
  rw [length_cons, length_append, length_singleton] at hfuel
  obtain ⟨f, rfl⟩ : ∃ f, fuel = f + 1 := ⟨fuel - 1, by omega⟩
  obtain ⟨g, v, hg, hread, hv⟩ := h f (.rpar :: rest) (fun c r => by simp) (fun r => by simp)
    (by omega)
  obtain ⟨g, rfl⟩ : ∃ g', g = g' + 1 := ⟨g - 1, by omega⟩
  refine ⟨v, ?_, hv⟩
  rw [cons_append, append_assoc, singleton_append, pyAtom, hread, pyOrRest_rpar]

/-- How Python reads an expression, by the level of its operator. -/
structure Expr.Parses (defines : Finset String) (exact_ : Bool) (e : Expr) : Prop where
  or_test : ParsesOr defines exact_ e (e.py defines 0)
  and_test : 1 ≤ e.level → ParsesAnd defines exact_ e (e.py defines 0)
  not_test : 2 ≤ e.level → ParsesNot defines exact_ e (e.py defines 0)
  atom : e.atomic = true → ParsesAtom defines exact_ e (e.py defines 0)

/-- What is read as an operand is read at every level. -/
theorem Expr.Parses.of_atom (h : ParsesAtom defines exact_ e (e.py defines 0)) :
    e.Parses defines exact_ :=
  ⟨h.parsesNot.parsesAnd.parsesOr, fun _ => h.parsesNot.parsesAnd, fun _ => h.parsesNot, fun _ => h⟩

theorem Expr.Parses.of_not (hatomic : e.atomic = false)
    (h : ParsesNot defines exact_ e (e.py defines 0)) : e.Parses defines exact_ :=
  ⟨h.parsesAnd.parsesOr, fun _ => h.parsesAnd, fun _ => h, fun ha => by simp [hatomic] at ha⟩

theorem Expr.Parses.not_at (h : e.Parses defines exact_) {p : ℕ} (hp : 2 ≤ p) :
    ParsesNot defines exact_ e (e.py defines p) := by
  rw [e.py_eq defines p]
  by_cases hwrap : (decide (e.level < p) && !e.atomic) = true
  · rw [hwrap]
    exact h.or_test.parsesAtom.parsesNot
  · rw [Bool.eq_false_of_not_eq_true hwrap]
    by_cases hatomic : e.atomic = true
    · exact (h.atom hatomic).parsesNot
    · refine h.not_test ?_
      have hlevel : ¬ e.level < p := by simpa [hatomic] using hwrap
      omega

theorem Expr.Parses.and_at (h : e.Parses defines exact_) {p : ℕ} (hp : 1 ≤ p) :
    ParsesAnd defines exact_ e (e.py defines p) := by
  rw [e.py_eq defines p]
  by_cases hwrap : (decide (e.level < p) && !e.atomic) = true
  · rw [hwrap]
    exact h.or_test.parsesAtom.parsesNot.parsesAnd
  · rw [Bool.eq_false_of_not_eq_true hwrap]
    by_cases hatomic : e.atomic = true
    · exact (h.atom hatomic).parsesNot.parsesAnd
    · refine h.and_test ?_
      have hlevel : ¬ e.level < p := by simpa [hatomic] using hwrap
      omega

theorem Expr.py_of_atomic (h : e.atomic = true) (p : ℕ) : e.py defines p = e.py defines 0 := by
  rw [e.py_eq, h, Bool.not_true, Bool.and_false]
  rfl

theorem parsesAtom_number {n : ℕ} (h : n = e.value defines) :
    ParsesAtom defines exact_ e [.number n] := by
  intro fuel rest _
  exact ⟨n, by cases fuel <;> rfl, .of_eq h⟩

theorem truth_eq_zero (b : Bool) : truth b = 0 ↔ b = false := by
  cases b <;> simp [truth]

/-- **Python reads an expression of the kind as cpp does.** -/
theorem Expr.Alike.parses (e : Expr) :
    ∀ exact_, e.Alike defines exact_ → e.Parses defines exact_ := by
  induction e with
  | defined x call =>
    intro exact_ _
    refine .of_atom (parsesAtom_number ?_)
    by_cases hx : x ∈ defines <;> simp [Expr.value, truth, hx]
  | ident x =>
    intro exact_ h
    have hx : x ∉ defines := h
    exact .of_atom (parsesAtom_number (by simp [Expr.value, truth, hx]))
  | number n python =>
    intro exact_ h
    obtain rfl : python = true := h
    exact .of_atom (parsesAtom_number rfl)
  | paren e ih =>
    intro exact_ h
    have hinner : ParsesAtom defines exact_ e (.lpar :: (e.py defines 0 ++ [.rpar])) :=
      (ih exact_ h).or_test.parsesAtom
    exact .of_atom hinner
  | ne a b => exact fun _ h => h.elim
  | not e ih =>
    intro exact_ h
    refine .of_not rfl fun fuel rest hcmp hfuel => ?_
    have hinner := (ih false h).not_at (p := 4) (by omega)
    rw [show (Expr.not e).py defines 0 = .not :: e.py defines 4 from rfl] at hfuel ⊢
    rw [length_cons] at hfuel
    obtain ⟨f, rfl⟩ : ∃ f, fuel = f + 1 := ⟨fuel - 1, by omega⟩
    obtain ⟨v, hread, hv⟩ := hinner f rest hcmp (by omega)
    refine ⟨if v = 0 then 1 else 0, by rw [cons_append, pyNot, hread], .of_eq ?_⟩
    have htruth := hv.truth
    by_cases hzero : v = 0
    · simp [hzero, Expr.value, truth, htruth.mp hzero]
    · simp [hzero, Expr.value, truth, mt htruth.mpr hzero]
  | cmp c a b iha ihb =>
    -- no comparison follows, so Python's chain ends behind the second operand
    intro exact_ h
    obtain ⟨⟨hatomicA, ha⟩, hatomicB, hb⟩ := h
    have hatomA := (iha true ha).atom hatomicA
    have hatomB := (ihb true hb).atom hatomicB
    have hpy : (Expr.cmp c a b).py defines 0 = a.py defines 0 ++ .cmp c :: b.py defines 0 := by
      show a.py defines c.level ++ .cmp c :: b.py defines (c.level + 1) = _
      rw [Expr.py_of_atomic hatomicA, Expr.py_of_atomic hatomicB]
    refine .of_not rfl fun fuel rest hcmp hfuel => ?_
    rw [hpy] at hfuel ⊢
    rw [length_append, length_cons] at hfuel
    obtain ⟨f, rfl⟩ : ∃ f, fuel = f + 3 := ⟨fuel - 3, by omega⟩
    obtain ⟨v, hreadA, hv⟩ := hatomA (f + 1) (.cmp c :: (b.py defines 0 ++ rest)) (by omega)
    obtain ⟨w, hreadB, hw⟩ := hatomB f rest (by omega)
    have hva : v = a.value defines := hv
    have hwb : w = b.value defines := hw
    refine ⟨if c.holds v w then 1 else 0, ?_, .of_eq ?_⟩
    · obtain ⟨t, r, hts, hnot⟩ := hatomA.head
      have hcomparison : pyComparison (f + 2) (a.py defines 0 ++ .cmp c ::
        (b.py defines 0 ++ rest)) =
          some (if c.holds v w then 1 else 0, rest) := by
        rw [pyComparison, hreadA]
        show pyChain (f + 1) true v c (b.py defines 0 ++ rest) = _
        rw [pyChain, hreadB]
        cases rest with
        | nil => simp
        | cons t' r' =>
          cases t' with
          | cmp c' => exact absurd rfl (hcmp c' r')
          | _ => simp
      rw [append_assoc, cons_append, ← hcomparison, hts, cons_append, pyNot_of_head hnot]
    · rw [hva, hwb, Expr.value, truth]
      cases c.holds (a.value defines) (b.value defines) <;> rfl
  | and a b iha ihb =>
    -- the operand Python returns has the truth of the conjunction
    intro exact_ h
    obtain ⟨rfl, ha, hb⟩ := h
    have hboth : ParsesAnd defines false (.and a b) ((Expr.and a b).py defines 0) := by
      intro fuel rest hcmp hfuel
      rw [show (Expr.and a b).py defines 0 = a.py defines 1 ++ .and :: b.py defines 2 from rfl]
        at hfuel ⊢
      rw [length_append, length_cons] at hfuel ⊢
      obtain ⟨f, v, hf, hreadA, hv⟩ := (iha false ha).and_at (p := 1) le_rfl fuel
        (.and :: (b.py defines 2 ++ rest)) (fun c r => by simp) (by omega)
      obtain ⟨f, rfl⟩ : ∃ f', f = f' + 1 := ⟨f - 1, by omega⟩
      obtain ⟨w, hreadB, hw⟩ := (ihb false hb).not_at (p := 2) le_rfl f rest hcmp (by omega)
      refine ⟨f, if v = 0 then v else w, by omega, ?_, ?_⟩
      · rw [append_assoc, cons_append, hreadA, pyAndRest, hreadB]
      · have hva := hv.truth
        have hwb := hw.truth
        show (if v = 0 then v else w) = 0 ↔ truth _ = 0
        rw [truth_eq_zero]
        by_cases hzero : v = 0
        · simp [hzero, hva.mp hzero]
        · simp [hzero, mt hva.mpr hzero, hwb]
    exact ⟨hboth.parsesOr, fun _ => hboth, fun hlevel => by simp [Expr.level] at hlevel,
      fun hatomic => by simp [Expr.atomic] at hatomic⟩
  | or a b iha ihb =>
    intro exact_ h
    obtain ⟨rfl, ha, hb⟩ := h
    refine ⟨fun fuel rest hcmp hand hfuel => ?_, fun hlevel => by simp [Expr.level] at hlevel,
      fun hlevel => by simp [Expr.level] at hlevel, fun hatomic => by simp [Expr.atomic] at hatomic⟩
    rw [show (Expr.or a b).py defines 0 = a.py defines 0 ++ .or :: b.py defines 1 from rfl]
      at hfuel ⊢
    rw [length_append, length_cons] at hfuel ⊢
    obtain ⟨f, v, hf, hreadA, hv⟩ := (iha false ha).or_test fuel (.or :: (b.py defines 1 ++ rest))
      (fun c r => by simp) (fun r => by simp) (by omega)
    obtain ⟨f, rfl⟩ : ∃ f', f = f' + 1 := ⟨f - 1, by omega⟩
    obtain ⟨g, w, hg, hreadB, hw⟩ := (ihb false hb).and_at (p := 1) le_rfl f rest hcmp (by omega)
    obtain ⟨g, rfl⟩ : ∃ g', g = g' + 1 := ⟨g - 1, by omega⟩
    refine ⟨f, if v = 0 then w else v, by omega, ?_, ?_⟩
    · rw [append_assoc, cons_append, hreadA, pyOrRest, hreadB, pyAndRest_done hand]
    · have hva := hv.truth
      have hwb := hw.truth
      show (if v = 0 then w else v) = 0 ↔ truth _ = 0
      rw [truth_eq_zero]
      by_cases hzero : v = 0
      · simp [hzero, hva.mp hzero, hwb]
      · simp [hzero, mt hva.mpr hzero]

/-- **`_cpp_expr_true` gives such an expression the truth cpp gives it.** -/
theorem maskTakes_of_alike (h : e.Alike defines false) :
    maskTakes defines e = cppTakes defines e := by
  have hrewritten : pyTokens (subDefined defines (subDefinedCall defines (e.tokens 0)))
      = e.py defines 0 := by
    have htokens := rewritten_tokens defines e 0 []
    simpa [rewritten, subDefinedCall, subDefined, pyTokens] using htokens
  obtain ⟨f, v, hf, hread, hv⟩ := (Expr.Alike.parses e false h).or_test
    (8 * (e.py defines 0).length + 8) [] (fun c r => by simp) (fun r => by simp) (by omega)
  obtain ⟨f, rfl⟩ : ∃ f', f = f' + 1 := ⟨f - 1, by omega⟩
  rw [append_nil] at hread
  rw [maskTakes, cppExprTrue, hrewritten, pyEval, hread, cppTakes]
  show decide (v ≠ 0) = decide (e.value defines ≠ 0)
  rw [decide_eq_decide, ne_eq, ne_eq, not_iff_not]
  exact hv.truth

mutual

/-- Every expression of a source is of the kind. -/
def Body.Alike (defines : Finset String) : Body → Prop
  | .nil => True
  | .text _ rest => rest.Alike defines
  | .group o first arms rest =>
      (match o with
        | .if_ e => e.Alike defines false
        | _ => True) ∧ first.Alike defines ∧ arms.Alike defines ∧ rest.Alike defines

@[inherit_doc Body.Alike]
def Arms.Alike (defines : Finset String) : Arms → Prop
  | .endif => True
  | .else_ b => b.Alike defines
  | .elif_ e b rest => e.Alike defines false ∧ b.Alike defines ∧ rest.Alike defines

end

mutual

/-- Of such a source the two preprocessors take the same arms. -/
theorem Body.Alike.agree (b : Body) (h : b.Alike defines) :
    b.Agree defines (maskTakes defines) (cppTakes defines) := by
  cases b with
  | nil => trivial
  | text s rest => exact Body.Alike.agree rest h
  | group o first arms rest =>
    obtain ⟨ho, hfirst, harms, hrest⟩ := h
    have hsame : o.holds defines (maskTakes defines) = o.holds defines (cppTakes defines) := by
      cases o with
      | if_ e => exact maskTakes_of_alike ho
      | ifdef x => rfl
      | ifndef x => rfl
    refine ⟨?_, Body.Alike.agree rest hrest⟩
    rw [hsame]
    cases o.holds defines (cppTakes defines) with
    | true => exact Body.Alike.agree first hfirst
    | false => exact Arms.Alike.agree arms harms

theorem Arms.Alike.agree (arms : Arms) (h : arms.Alike defines) :
    arms.Agree defines (maskTakes defines) (cppTakes defines) := by
  cases arms with
  | endif => trivial
  | else_ b => exact Body.Alike.agree b h
  | elif_ e b rest =>
    obtain ⟨he, hb, hrest⟩ := h
    rw [Arms.Agree, maskTakes_of_alike he]
    cases cppTakes defines e with
    | true => exact Body.Alike.agree b hb
    | false => exact Arms.Alike.agree rest hrest

end

/-! ## The lines kept -/

/-- **`_mask_cpp` keeps what cpp keeps exactly when the two agree on every group**, and so for
every source whose expressions Python reads as cpp does. -/
theorem keepsAsCpp_iff (defines : Finset String) (b : Body) :
    (KeepsAsCpp defines b ↔ b.Agree defines (maskTakes defines) (cppTakes defines)) ∧
      (b.Alike defines → KeepsAsCpp defines b) := by
  have hmask : (maskCpp b.lines defines).map Out.isLive
      = b.kept defines (maskTakes defines) true := by
    have := @Body.map_isLive defines b [] []
    simpa [maskCpp, maskFrom, live] using this
  have hiff : KeepsAsCpp defines b ↔ b.Agree defines (maskTakes defines) (cppTakes defines) := by
    rw [KeepsAsCpp, hmask, Body.kept_eq_iff]
    exact and_iff_left (map_line_maskFrom defines b.lines [])
  exact ⟨hiff, fun h => hiff.mpr (Body.Alike.agree b h)⟩

/-- `#if 1 != 0` is rewritten to `1 not = 0`, which does not parse: its line is masked. -/
theorem not_keepsAsCpp_ne : ¬ KeepsAsCpp ∅
    (.group (.if_ (.ne (.number 1 true) (.number 0 true))) (.text "use a" .nil) .endif .nil) := by
  rintro ⟨hlive, -⟩
  revert hlive
  decide

end Residency
