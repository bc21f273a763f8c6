/-
# `strip_openmp_directives`

The pass over the lines of a source, with a stack of the open cpp conditionals: groups on
`_OPENMP` and `_OPENACC` are resolved as if neither was defined, other conditionals pass
through, and so does every line that is no sentinel, vendor directive or include of the
OpenMP definitions.
-/
import DaceFortran.Preprocess.UsedModules

namespace Preprocess

/-! ## The patterns -/

/-- `^\s*#\s*`: the rest of a directive. -/
def afterHash (line : Line) : Option Line :=
  match skipSpace line with
  | '#' :: r => some (skipSpace r)
  | _ => none

/-- `(\w+)` and the rest. -/
def takeWord (line : Line) : Option (List Char × Line) :=
  if line.head?.any isWord then some (line.takeWhile isWord, line.dropWhile isWord) else none

/-- `\s+(\w+)` -/
def spacedWord (line : Line) : Option (List Char) :=
  if line.head?.any isSpace then (takeWord (skipSpace line)).map Prod.fst else none

/-- `_CPP_IFDEF_RE`: whether the directive is `#ifndef`, and the macro. -/
def cppIfdef (line : Line) : Option (Bool × List Char) :=
  (afterHash line).bind fun r =>
    match keyword "ifdef".toList r with
    | some s => (spacedWord s).map fun m => (false, m)
    | none => (keyword "ifndef".toList r).bind fun s => (spacedWord s).map fun m => (true, m)

/-- `(!)?` -/
def skipBang (line : Line) : Bool × Line :=
  match line with
  | '!' :: r => (true, r)
  | r => (false, r)

/-- `\s*defined\s*\(\s*(\w+)\s*\)\s*$` -/
def definedCall (line : Line) : Option (List Char) :=
  (keyword "defined".toList (skipSpace line)).bind fun r =>
    match skipSpace r with
    | '(' :: s =>
      (takeWord (skipSpace s)).bind fun p =>
        match skipSpace p.2 with
        | ')' :: t => if skipSpace t = [] then some p.1 else none
        | _ => none
    | _ => none

/-- `_CPP_IFDEFINED_RE`: whether the test is negated, and the macro. -/
def cppIfdefined (line : Line) : Option (Bool × List Char) :=
  ((afterHash line).bind (keyword "if".toList)).bind fun r =>
    if r.head?.any isSpace then
      let p := skipBang (skipSpace r)
      (definedCall p.2).map fun m => (p.1, m)
    else none

/-- `_CPP_IF_RE`, `_CPP_ELSE_RE`, `_CPP_ELIF_RE` and `_CPP_ENDIF_RE`. -/
def cppKeyword (k : List Char) (line : Line) : Bool :=
  ((afterHash line).bind (wholeKeyword k)).isSome

def ompAccMacros : List (List Char) := ["_OPENMP".toList, "_OPENACC".toList]

/-- What a line is to the conditionals: an opener carries, when it tests one of the two macros,
whether its first arm is dropped. -/
inductive Kind where
  | opener (omp : Option Bool)
  | els
  | elif
  | endif
  | plain
  deriving DecidableEq

/-- The opener that tests a macro, negated or not. -/
def testOf (p : Bool × List Char) : Kind :=
  .opener (if p.2 ∈ ompAccMacros then some (!p.1) else none)

/-- The first pattern that matches. -/
def classify (line : Line) : Kind :=
  match cppIfdef line with
  | some p => testOf p
  | none =>
    match cppIfdefined line with
    | some p => testOf p
    | none =>
      if cppKeyword "if".toList line then .opener none
      else if cppKeyword "else".toList line then .els
      else if cppKeyword "elif".toList line then .elif
      else if cppKeyword "endif".toList line then .endif
      else .plain

/-- `^\s*!\s*`: the rest of a comment line. -/
def afterBang (line : Line) : Option Line :=
  match skipSpace line with
  | '!' :: r => some (skipSpace r)
  | _ => none

/-- The rest after `$`. -/
def afterDollar (line : Line) : Option Line :=
  match line with
  | '$' :: r => some r
  | _ => none

/-- `_OMP_SENTINEL_RE` -/
def ompSentinel (line : Line) : Bool :=
  (((afterBang line).bind afterDollar).map skipSpace).any fun r =>
    (wholeKeyword "omp".toList r).isSome || (wholeKeyword "acc".toList r).isSome ||
      (wholeKeyword "cuf".toList r).isSome

def isBlank (c : Char) : Bool := decide (c.toNat ∈ [9, 32])

/-- `_OMP_COND_LINE_RE` -/
def ompCondLine (line : Line) : Bool :=
  ((afterBang line).bind afterDollar).any fun r =>
    r.head?.any isBlank && (r.dropWhile isBlank).head?.any fun c => !isSpace c

/-- `_VENDOR_DIRECTIVE_RE` -/
def vendorDirective (line : Line) : Bool :=
  (((afterBang line).bind (keyword "dir".toList)).bind afterDollar).isSome

def isQuote (c : Char) : Bool := decide (c.toNat = 34)

/-- The rest after the opening bracket or quote of a file name. -/
def afterNameOpen (line : Line) : Option Line :=
  match line with
  | c :: r => if c = '<' ∨ isQuote c then some r else none
  | [] => none

/-- `[^>"]` -/
def inFileName (c : Char) : Bool := !(decide (c = '>') || isQuote c)

/-- `[^>"]*omp_definitions[^>"]*\.inc` -/
def ompDefinitions (file : Line) : Bool :=
  let name := file.map Char.toLower
  ".inc".toList.isSuffixOf name &&
    (name.take (name.length - 4)).tails.any "omp_definitions".toList.isPrefixOf

/-- `_OMP_INCLUDE_RE` -/
def ompInclude (line : Line) : Bool :=
  (((afterHash line).bind (keyword "include".toList)).bind fun r => afterNameOpen (skipSpace r)).any
    fun r =>
      ompDefinitions (r.takeWhile inFileName) &&
        match r.dropWhile inFileName with
        | _ :: t => decide (skipSpace t = [])
        | [] => false

/-- The lines dropped wherever they stand. -/
def inert (line : Line) : Bool :=
  ompSentinel line || ompCondLine line || ompInclude line || vendorDirective line

/-! ## The pass -/

/-- One open conditional: whether it tests one of the two macros, and whether the arm is being
dropped. -/
structure Entry where
  omp : Bool
  drop : Bool
  deriving DecidableEq

/-- The open conditionals, innermost first. -/
abbrev Stack := List Entry

/-- Some open arm is being dropped. -/
def dead (stack : Stack) : Bool := stack.any fun e => e.omp && e.drop

/-- The end of the loop body: whether the line is emitted. -/
def keep (stack : Stack) (line : Line) : Bool := !dead stack && !inert line

/-- One turn of the loop: the stack after the line, and whether the line is emitted. -/
def turn (stack : Stack) (line : Line) : Stack × Bool :=
  match classify line with
  | .opener (some drop) => (⟨true, drop⟩ :: stack, false)
  | .opener none => (⟨false, false⟩ :: stack, keep (⟨false, false⟩ :: stack) line)
  | .els =>
    match stack with
    | ⟨true, drop⟩ :: rest => (⟨true, !drop⟩ :: rest, false)
    | _ => (stack, keep stack line)
  | .elif =>
    match stack with
    | ⟨true, _⟩ :: rest => (⟨true, true⟩ :: rest, false)
    | _ => (stack, keep stack line)
  | .endif =>
    match stack with
    | ⟨true, _⟩ :: rest => (rest, false)
    | ⟨false, _⟩ :: rest => (rest, keep rest line)
    | [] => ([], keep [] line)
  | .plain => (stack, keep stack line)

/-- The stack after some lines. -/
def stackAfter (stack : Stack) (lines : List Line) : Stack :=
  lines.foldl (fun s line => (turn s line).1) stack

/-- The lines emitted, from a stack. -/
def emitFrom : Stack → List Line → List Line
  | _, [] => []
  | stack, line :: rest =>
    let p := turn stack line
    if p.2 then line :: emitFrom p.1 rest else emitFrom p.1 rest

/-- `splitlines(keepends=True)` with the line read so far, reversed. -/
def splitKeepFrom : Line → Text → List Line
  | acc, [] => if acc = [] then [] else [acc.reverse]
  | acc, c :: r =>
    -- a line feed belongs to the carriage return before it
    if isBoundary c && !(decide (c.toNat = 13) && r.head?.any fun d => decide (d.toNat = 10)) then
      (c :: acc).reverse :: splitKeepFrom [] r
    else splitKeepFrom (c :: acc) r

/-- `strip_openmp_directives` -/
def stripOpenmpDirectives (source : Text) : Text := (emitFrom [] (splitKeepFrom [] source)).flatten

/-! ## Stacks and lines -/

variable (s : Stack)

@[simp] theorem stackAfter_nil : stackAfter s [] = s := rfl

@[simp] theorem stackAfter_cons (line : Line) (rest : List Line) :
    stackAfter s (line :: rest) = stackAfter (turn s line).1 rest := rfl

@[simp] theorem stackAfter_append (a b : List Line) :
    stackAfter s (a ++ b) = stackAfter (stackAfter s a) b := List.foldl_append

@[simp] theorem emitFrom_nil : emitFrom s [] = [] := rfl

theorem emitFrom_cons (line : Line) (rest : List Line) :
    emitFrom s (line :: rest) =
      (if (turn s line).2 then [line] else []) ++ emitFrom (turn s line).1 rest := by
  show (if (turn s line).2 then _ else _) = _
  split <;> rfl

theorem emitFrom_append (a b : List Line) :
    emitFrom s (a ++ b) = emitFrom s a ++ emitFrom (stackAfter s a) b := by
  induction a generalizing s with
  | nil => rfl
  | cons line a ih => rw [List.cons_append, emitFrom_cons, emitFrom_cons, ih, List.append_assoc,
      stackAfter_cons]

@[simp] theorem dead_nil : dead [] = false := rfl

@[simp] theorem dead_cons (e : Entry) (s : Stack) : dead (e :: s) =
    (e.omp && e.drop || dead s) := rfl

/-! ## Directives are never inert -/

theorem afterBang_of_afterHash {line r : Line} (h : afterHash line = some r) :
    afterBang line = none := by
  unfold afterHash at h
  unfold afterBang
  split at h
  · rename_i heq
    rw [heq]
    rfl
  · cases h

variable {ks : List Char} {line : Line}

theorem keyword_head {k : Char} {line r : Line} (h : keyword (k :: ks) line = some r) :
    ∃ c rest, line = c :: rest ∧ c.toLower = k ∧ keyword ks rest = some r := by
  cases line with
  | nil => cases h
  | cons c rest =>
    unfold keyword at h
    split at h
    · rename_i hc
      exact ⟨c, rest, rfl, hc, h⟩
    · cases h

/-- Keywords read at one place start with the same two letters. -/
theorem keyword_two {a b a' b' : Char} {ks ks' : List Char} {line r r' : Line}
    (h : keyword (a :: b :: ks) line = some r) (h' : keyword (a' :: b' :: ks') line = some r') :
    a = a' ∧ b = b' := by
  obtain ⟨c, rest, rfl, hc, h⟩ := keyword_head h
  obtain ⟨c', rest', he, hc', h'⟩ := keyword_head h'
  obtain ⟨rfl, rfl⟩ := List.cons.inj he
  obtain ⟨d, last, rfl, hd, -⟩ := keyword_head h
  obtain ⟨d', last', he, hd', -⟩ := keyword_head h'
  obtain ⟨rfl, rfl⟩ := List.cons.inj he
  exact ⟨hc.symm.trans hc', hd.symm.trans hd'⟩

/-- After the hash comes a keyword that does not start like `include`. -/
def Conditional (line : Line) : Prop :=
  ∃ r s a b ks, afterHash line = some r ∧ keyword (a :: b :: ks) r = some s ∧ ¬ (a = 'i' ∧ b = 'n')

theorem conditional_of_bind {line s : Line} {a b : Char}
    (h : (afterHash line).bind (keyword (a :: b :: ks)) = some s) (hab : ¬ (a = 'i' ∧ b = 'n')) :
    Conditional line := by
  obtain ⟨r, hr, hk⟩ := Option.bind_eq_some_iff.mp h
  exact ⟨r, s, a, b, ks, hr, hk, hab⟩

theorem conditional_of_cppKeyword {a b : Char}
    (h : cppKeyword (a :: b :: ks) line = true) (hab : ¬ (a = 'i' ∧ b = 'n')) :
    Conditional line := by
  obtain ⟨t, ht⟩ := Option.isSome_iff_exists.mp h
  obtain ⟨r, hr, hw⟩ := Option.bind_eq_some_iff.mp ht
  unfold wholeKeyword at hw
  split at hw
  · rename_i s hs
    exact ⟨r, s, a, b, ks, hr, hs, hab⟩
  · cases hw

theorem conditional_of_cppIfdef {p : Bool × List Char} (h : cppIfdef line = some p) :
    Conditional line := by
  obtain ⟨r, hr, hp⟩ := Option.bind_eq_some_iff.mp h
  split at hp
  · rename_i s hs
    exact ⟨r, s, 'i', 'f', _, hr, hs, by decide⟩
  · obtain ⟨s, hs, -⟩ := Option.bind_eq_some_iff.mp hp
    exact ⟨r, s, 'i', 'f', _, hr, hs, by decide⟩

theorem Conditional.inert (h : Conditional line) : inert line = false := by
  obtain ⟨r, s, a, b, ks, hr, hs, hab⟩ := h
  have hb := afterBang_of_afterHash hr
  have hi : keyword "include".toList r = none := by
    cases hk : keyword "include".toList r with
    | none => rfl
    | some t => exact absurd (keyword_two hs hk) hab
  have hinc : ompInclude line = false := by
    unfold ompInclude
    rw [hr, Option.bind_some, hi]
    rfl
  unfold Preprocess.inert ompSentinel ompCondLine vendorDirective
  rw [hb, hinc]
  rfl

/-- **Directives of conditionals are not inert.** -/
theorem inert_of_classify (h : classify line ≠ .plain) : inert line = false := by
  apply Conditional.inert
  unfold classify at h
  split at h
  · rename_i p hp
    exact conditional_of_cppIfdef hp
  · split at h
    · rename_i p hp
      obtain ⟨r, hr, -⟩ := Option.bind_eq_some_iff.mp hp
      exact conditional_of_bind hr (by decide)
    · by_cases h1 : cppKeyword "if".toList line = true
      · exact conditional_of_cppKeyword h1 (by decide)
      · by_cases h2 : cppKeyword "else".toList line = true
        · exact conditional_of_cppKeyword h2 (by decide)
        · by_cases h3 : cppKeyword "elif".toList line = true
          · exact conditional_of_cppKeyword h3 (by decide)
          · by_cases h4 : cppKeyword "endif".toList line = true
            · exact conditional_of_cppKeyword h4 (by decide)
            · rw [if_neg h1, if_neg h2, if_neg h3, if_neg h4] at h
              exact absurd rfl h

end Preprocess
