/-
# `_stub_procedure_bodies`

The executable part of each procedure with one of the given names is dropped, line by line:
a line that opens such a procedure starts a specification part, the first line that is no
specification line ends it, and everything up to the matching `END` is dropped.

A source is given with its structure, as Fortran reads it.  The pass keeps what it should if
each line is recognised for what it is; what the patterns take for openers and `END`s in an
executable part, or for the lines of `INTERFACE` blocks, need only be balanced
(`stubProcedureBodies_empties`).
-/
import DaceFortran.Preprocess.StripOpenmp

open List

namespace Preprocess

/-! ## The patterns -/

/-- `\s+` -/
def spaces (line : Line) : Option Line :=
  if line.head?.any isSpace then some (skipSpace line) else none

/-- `(?:RECURSIVE\s+|PURE\s+|ELEMENTAL\s+|IMPURE\s+)*`, at most `n` times. -/
def skipAttributes : ℕ → Line → Line
  | 0, r => r
  | n + 1, r =>
    match ["recursive", "pure", "elemental", "impure"].findSome?
      (fun k => (keyword k.toList r).bind spaces) with
    | some s => skipAttributes n s
    | none => r

/-- `\(\s*[^)]*\)` -/
def parenthesized (line : Line) : Option Line :=
  match line with
  | '(' :: r =>
    match r.dropWhile (fun c => !decide (c = ')')) with
    | ')' :: s => some s
    | _ => none
  | _ => none

/-- What may stand before the name of a procedure. -/
def procKeywords : List (Line → Option Line) :=
  [keyword "subroutine".toList, keyword "function".toList] ++
  ["real", "integer", "logical"].map
    (fun t r => (keyword t.toList r).bind fun s => keyword "function".toList (skipSpace s)) ++
  [fun r => (((keyword "double".toList r).bind spaces).bind (keyword "precision".toList)).bind
    fun s =>
    (spaces s).bind (keyword "function".toList)] ++
  ["real", "integer", "logical", "complex", "character"].map (fun t r =>
    (((keyword t.toList r).bind fun s => parenthesized (skipSpace s)).bind spaces).bind
      (keyword "function".toList))

/-- `_PROC_OPEN_RE`: the name of the procedure a line opens. -/
def procOpen (code : Line) : Option Name :=
  let r := skipSpace code
  procKeywords.findSome? fun k =>
    (((k (skipAttributes r.length r)).bind spaces).bind takeName).map Prod.fst

/-- `_PROC_END_RE` -/
def procEnd (code : Line) : Bool :=
  ((keyword "end".toList (skipSpace code)).map skipSpace).any fun r =>
    (wholeKeyword "subroutine".toList r).isSome || (wholeKeyword "function".toList r).isSome

/-- `_CONTAINS_RE` -/
def containsLine (code : Line) : Bool := (wholeKeyword "contains".toList (skipSpace code)).isSome

/-- `_INTERFACE_OPEN_RE` -/
def interfaceOpen (code : Line) : Bool :=
  let r := skipSpace code
  (wholeKeyword "interface".toList r).isSome ||
    (((keyword "abstract".toList r).bind spaces).bind (wholeKeyword "interface".toList)).isSome

/-- `_INTERFACE_END_RE` -/
def interfaceEnd (code : Line) : Bool :=
  ((keyword "end".toList (skipSpace code)).map skipSpace).any fun r =>
    (wholeKeyword "interface".toList r).isSome

/-- The keywords of `_SPEC_LINE_RE`. -/
def specKeywords : List (List Char) :=
  ["use", "implicit", "integer", "real", "complex", "logical", "character", "type", "class",
    "procedure", "interface",
    "parameter", "dimension", "allocatable", "pointer", "target", "intent", "optional", "save",
      "external", "intrinsic",
    "common", "data", "namelist", "import", "value", "volatile", "asynchronous", "sequence",
      "generic", "enum",
    "enumerator", "equivalence", "bind", "contiguous"].map String.toList

/-- The pairs of keywords of `_SPEC_LINE_RE`. -/
def specPairs : List (List Char × List Char) :=
  [("double", "precision"), ("end", "interface"), ("end", "type"), ("module", "procedure")].map
    fun p => (p.1.toList, p.2.toList)

/-- `_SPEC_LINE_RE` -/
def specLine (code : Line) : Bool :=
  let r := skipSpace code
  r.head?.any (fun c => decide (c = '&')) ||
    specKeywords.any (fun k => (wholeKeyword k r).isSome) ||
    specPairs.any (fun p => (((keyword p.1 r).bind spaces).bind (wholeKeyword p.2)).isSome)

/-- `code.strip()` is empty. -/
def blankLine (code : Line) : Bool := skipSpace code = []

/-- `line.rstrip("\r\n")` -/
def withoutEnd (line : Line) : Line :=
  (line.reverse.dropWhile fun c => decide (c.toNat = 10 ∨ c.toNat = 13)).reverse

/-- The code of a line with its end. -/
def lineCode (line : Line) : Line := codeOf (withoutEnd line)

/-- `_is_target` -/
def isTarget (targets : List Name) (nm : Name) : Bool :=
  decide (nm ∈ targets) || targets.any fun t => (t ++ ['_']).isPrefixOf nm

/-! ## The scan -/

/-- Where the scan is: outside the procedures to empty, in a specification part, inside so many
`INTERFACE` blocks, or behind it, inside so many procedures. -/
inductive StubMode where
  | outside
  | spec (depth : ℕ)
  | body (depth : ℕ)
  deriving DecidableEq

/-- One line behind the specification part, and whether it is kept. -/
def bodyTurn (depth : ℕ) (code : Line) : StubMode × Bool :=
  if (procOpen code).isSome then (.body (depth + 1), false)
  else if procEnd code then if depth ≤ 1 then (.outside, true) else (.body (depth - 1), false)
  else (.body depth, false)

/-- Whether a line ends the specification part. -/
def endsSpec (code : Line) : Bool :=
  procEnd code || containsLine code || (procOpen code).isSome || (!blankLine code && !specLine code)

/-- Whether a line opens a procedure to empty. -/
def opensTarget (targets : List Name) (code : Line) : Bool := (procOpen code).any (isTarget targets)

/-- One line of the scan, and whether it is kept. -/
def stubTurn (targets : List Name) (mode : StubMode) (code : Line) : StubMode × Bool :=
  match mode with
  | .outside => if opensTarget targets code then (.spec 0, true) else (.outside, true)
  | .spec 0 =>
    if interfaceOpen code then (.spec 1, true)
    else if endsSpec code then bodyTurn 1 code
    else (.spec 0, true)
  | .spec (depth + 1) =>
    if interfaceOpen code then (.spec (depth + 2), true)
    else if interfaceEnd code then (.spec depth, true)
    else (.spec (depth + 1), true)
  | .body depth => bodyTurn depth code

/-- The lines kept. -/
def stubLines (targets : List Name) : StubMode → List Line → List Line
  | _, [] => []
  | mode, line :: rest =>
    let p := stubTurn targets mode (lineCode line)
    if p.2 then line :: stubLines targets p.1 rest else stubLines targets p.1 rest

/-- `_stub_procedure_bodies` -/
def stubProcedureBodies (names : List Name) (text : Text) : Text :=
  if names = [] then text
  else (stubLines (names.map fun nm => nm.map Char.toLower) .outside
    (splitKeepFrom [] text)).flatten

/-! ## Sources -/

/-- What a line is to one of the depth counters: it opens a level or closes one, or neither. -/
inductive Role where
  | opens
  | closes
  | plain
  deriving DecidableEq

/-- How many levels are open after some lines. -/
def nesting : ℕ → List Role → Option ℕ
  | d, [] => some d
  | d, .opens :: rest => nesting (d + 1) rest
  | d, .plain :: rest => nesting d rest
  | 0, .closes :: _ => none
  | d + 1, .closes :: rest => nesting d rest

/-- A piece of a specification part: a line of a statement, or an `INTERFACE` block. -/
inductive SpecItem where
  | line (l : Line)
  | block (first : Line) (inner : List Line) (last : Line)

def SpecItem.lines : SpecItem → List Line
  | .line l => [l]
  | .block first inner last => first :: (inner ++ [last])

/-- A procedure to empty: the lines of its opening statement, its specification part, its executable
part with its internal procedures, and its `END`. -/
structure Procedure where
  opener : Line
  openerRest : List Line
  spec : List SpecItem
  body : List Line
  last : Line

namespace Procedure

/-- The lines of the opening statement and of the specification part. -/
def head (p : Procedure) : List Line := p.opener :: (p.openerRest ++ p.spec.flatMap SpecItem.lines)

def lines (p : Procedure) : List Line := p.head ++ (p.body ++ [p.last])

/-- What should be left of it. -/
def emptied (p : Procedure) : List Line := p.head ++ [p.last]

end Procedure

/-- A line outside the procedures to empty, or one of these. -/
inductive SourceItem where
  | line (l : Line)
  | procedure (p : Procedure)

namespace SourceItem

def lines : SourceItem → List Line
  | .line l => [l]
  | .procedure p => p.lines

/-- What should be left of it. -/
def emptied : SourceItem → List Line
  | .line l => [l]
  | .procedure p => p.emptied

end SourceItem

/-- A text with its structure; procedures are only set off if there are names. -/
structure StubSource (names : List Name) where
  text : Text
  items : List SourceItem
  lines_eq : splitKeepFrom [] text = items.flatMap SourceItem.lines
  named : names = [] → ∀ i ∈ items, ∃ l, i = .line l

/-- **What the pass should do**: empty the procedures, and keep the rest. -/
def StubSource.Emptied {names : List Name} (s : StubSource names) : Prop :=
  stubProcedureBodies names s.text = (s.items.flatMap SourceItem.emptied).flatten

/-! ## Recognised sources -/

/-- What a line inside an `INTERFACE` block is taken for. -/
def interfaceRole (line : Line) : Role :=
  if interfaceOpen (lineCode line) then .opens
  else if interfaceEnd (lineCode line) then .closes else .plain

/-- What a line behind the specification part is taken for. -/
def bodyRole (line : Line) : Role :=
  if (procOpen (lineCode line)).isSome then .opens
  else if procEnd (lineCode line) then .closes else .plain

/-- A line that the scan keeps in a specification part. -/
structure KeptInSpec (line : Line) : Prop where
  no_interface : interfaceOpen (lineCode line) = false
  stays : endsSpec (lineCode line) = false

/-- A piece of a specification part that the scan takes for one. -/
def SpecItem.Recognised : SpecItem → Prop
  | .line l => KeptInSpec l
  | .block first inner last => interfaceRole first = .opens ∧
      nesting 0 (inner.map interfaceRole) = some 0 ∧ interfaceRole last = .closes

/-- A procedure that the scan empties: behind its specification part the openers and `END`s that
the patterns know are balanced. -/
structure Procedure.Recognised (targets : List Name) (p : Procedure) : Prop where
  opener : opensTarget targets (lineCode p.opener) = true
  openerRest : ∀ l ∈ p.openerRest, KeptInSpec l
  spec : ∀ i ∈ p.spec, i.Recognised
  first : ∀ l, (p.body ++ [p.last]).head? = some l →
    interfaceOpen (lineCode l) = false ∧ endsSpec (lineCode l) = true
  body : nesting 0 (p.body.map bodyRole) = some 0
  last : bodyRole p.last = .closes

/-- A procedure without executable part, that the scan does not see. -/
structure Procedure.Unseen (targets : List Name) (p : Procedure) : Prop where
  body : p.body = []
  lines : ∀ l ∈ p.lines, opensTarget targets (lineCode l) = false

/-- The scan takes each line for what it is. -/
def SourceItem.Recognised (targets : List Name) : SourceItem → Prop
  | .line l => opensTarget targets (lineCode l) = false
  | .procedure p => p.Recognised targets ∨ p.Unseen targets

def StubSource.Recognised {names : List Name} (s : StubSource names) : Prop :=
  ∀ i ∈ s.items, i.Recognised (names.map fun nm => nm.map Char.toLower)

/-! ## The scan of a recognised source -/

variable {targets : List Name}

theorem stubLines_cons (mode : StubMode) (line : Line) (rest : List Line) :
    stubLines targets mode (line :: rest) =
    (if (stubTurn targets mode (lineCode line)).2 then [line] else []) ++
      stubLines targets (stubTurn targets mode (lineCode line)).1 rest := by
  show (if (stubTurn targets mode (lineCode line)).2 then _ else _) = _
  split <;> rfl

variable {lines : List Line}

/-- Lines outside are kept. -/
theorem stubLines_outside (h : ∀ l ∈ lines, opensTarget targets (lineCode l) = false)
    (rest : List Line) : stubLines targets .outside (lines ++ rest) =
      lines ++ stubLines targets .outside rest := by
  induction lines with
  | nil => rfl
  | cons l lines ih =>
    have hl : stubTurn targets .outside (lineCode l) = (.outside, true) := by
      simp [stubTurn, h l mem_cons_self]
    rw [cons_append, stubLines_cons, hl, ih (fun l hl => h l (mem_cons_of_mem _ hl))]
    rfl

theorem stubTurn_spec {line : Line} (h : KeptInSpec line) :
    stubTurn targets (.spec 0) (lineCode line) = (.spec 0, true) := by
  simp [stubTurn, h.no_interface, h.stays]

/-- Lines of a specification part are kept. -/
theorem stubLines_spec (h : ∀ l ∈ lines, KeptInSpec l) (rest : List Line) :
    stubLines targets (.spec 0) (lines ++ rest) = lines ++ stubLines targets (.spec 0) rest := by
  induction lines with
  | nil => rfl
  | cons l lines ih =>
    rw [cons_append, stubLines_cons, stubTurn_spec (h l mem_cons_self),
      ih (fun l hl => h l (mem_cons_of_mem _ hl))]
    rfl

/-- **Balanced lines of an `INTERFACE` block are kept.** -/
theorem stubLines_interface {inner : List Line} {d d' : ℕ}
    (hd : nesting d (inner.map interfaceRole) = some d') (rest : List Line) :
    stubLines targets (.spec (d + 1)) (inner ++ rest) =
      inner ++ stubLines targets (.spec (d' + 1)) rest := by
  induction inner generalizing d with
  | nil =>
    cases hd
    rfl
  | cons l inner ih =>
    rw [map_cons] at hd
    rw [cons_append, stubLines_cons]
    cases hopen : interfaceOpen (lineCode l) with
    | true =>
      rw [interfaceRole, if_pos hopen] at hd
      simp only [stubTurn, hopen, if_true, ih hd]
      rfl
    | false =>
      cases hend : interfaceEnd (lineCode l) with
      | false =>
        simp only [interfaceRole, hopen, hend, Bool.false_eq_true, if_false] at hd
        simp only [stubTurn, hopen, hend, Bool.false_eq_true, if_false, if_true, ih hd]
        rfl
      | true =>
        simp only [interfaceRole, hopen, hend, Bool.false_eq_true, if_false, if_true] at hd
        -- an `END INTERFACE` at depth 0 would be the one of the block
        cases d with
        | zero => cases hd
        | succ d =>
          simp only [stubTurn, hopen, hend, Bool.false_eq_true, if_false, if_true, ih hd]
          rfl

theorem interfaceOpen_of_opens {line : Line} (h : interfaceRole line = .opens) :
    interfaceOpen (lineCode line) = true := by
  unfold interfaceRole at h
  split_ifs at h with hopen
  exact hopen

theorem interfaceEnd_of_closes {line : Line} (h : interfaceRole line = .closes) :
    interfaceOpen (lineCode line) = false ∧ interfaceEnd (lineCode line) = true := by
  unfold interfaceRole at h
  split_ifs at h with hopen hend
  exact ⟨Bool.eq_false_iff.2 hopen, hend⟩

/-- A piece of a specification part is kept. -/
theorem stubLines_specItem {i : SpecItem} (h : i.Recognised) (rest : List Line) :
    stubLines targets (.spec 0) (i.lines ++ rest) =
      i.lines ++ stubLines targets (.spec 0) rest := by
  cases i with
  | line l =>
    apply stubLines_spec
    intro l' hl'
    rw [mem_singleton.1 hl']
    exact h
  | block first inner last =>
    obtain ⟨hfirst, hinner, hlast⟩ := h
    obtain ⟨hlast, hend⟩ := interfaceEnd_of_closes hlast
    have h₁ : stubTurn targets (.spec 0) (lineCode first) = (.spec 1, true) := by
      simp [stubTurn, interfaceOpen_of_opens hfirst]
    have h₂ : stubTurn targets (.spec 1) (lineCode last) = (.spec 0, true) := by
      simp [stubTurn, hlast, hend]
    simp only [SpecItem.lines, cons_append, append_assoc]
    rw [stubLines_cons, h₁, stubLines_interface hinner, nil_append, stubLines_cons, h₂]
    rfl

/-- A specification part is kept. -/
theorem stubLines_specItems {items : List SpecItem} (h : ∀ i ∈ items, i.Recognised)
    (rest : List Line) :
    stubLines targets (.spec 0) (items.flatMap SpecItem.lines ++ rest) =
      items.flatMap SpecItem.lines ++ stubLines targets (.spec 0) rest := by
  induction items with
  | nil => rfl
  | cons i items ih =>
    rw [flatMap_cons, append_assoc, stubLines_specItem (h i mem_cons_self),
      ih (fun i hi => h i (mem_cons_of_mem _ hi)), append_assoc]

/-- **Balanced lines behind the specification part are dropped.** -/
theorem stubLines_body {body : List Line} {d d' : ℕ}
    (hd : nesting d (body.map bodyRole) = some d') (rest : List Line) :
    stubLines targets (.body (d + 1)) (body ++ rest) = stubLines targets (.body (d' + 1)) rest := by
  induction body generalizing d with
  | nil =>
    cases hd
    rfl
  | cons l body ih =>
    rw [map_cons] at hd
    rw [cons_append, stubLines_cons]
    cases hopen : (procOpen (lineCode l)).isSome with
    | true =>
      rw [bodyRole, if_pos hopen] at hd
      simp only [stubTurn, bodyTurn, hopen, if_true]
      exact ih hd
    | false =>
      cases hend : procEnd (lineCode l) with
      | false =>
        simp only [bodyRole, hopen, hend, Bool.false_eq_true, if_false] at hd
        simp only [stubTurn, bodyTurn, hopen, hend, Bool.false_eq_true, if_false]
        exact ih hd
      | true =>
        simp only [bodyRole, hopen, hend, Bool.false_eq_true, if_false, if_true] at hd
        -- an `END` at depth 0 would be the one of the procedure
        cases d with
        | zero => cases hd
        | succ d =>
          have hle : ¬ d + 1 + 1 ≤ 1 := by omega
          simp only [stubTurn, bodyTurn, hopen, hend, Bool.false_eq_true, if_false, if_true,
            if_neg hle]
          exact ih hd

theorem procEnd_of_closes {line : Line} (h : bodyRole line = .closes) :
    (procOpen (lineCode line)).isSome = false ∧ procEnd (lineCode line) = true := by
  unfold bodyRole at h
  split_ifs at h with hopen hend
  exact ⟨Bool.eq_false_iff.2 hopen, hend⟩

/-- The first line behind the specification part ends it. -/
theorem stubLines_first
    (h : ∀ l, lines.head? = some l → interfaceOpen (lineCode l) = false ∧
      endsSpec (lineCode l) = true) :
    stubLines targets (.spec 0) lines = stubLines targets (.body 1) lines := by
  cases lines with
  | nil => rfl
  | cons l lines =>
    obtain ⟨hi, he⟩ := h l rfl
    have hturn : stubTurn targets (.spec 0) (lineCode l) =
        stubTurn targets (.body 1) (lineCode l) := by
      simp [stubTurn, hi, he]
    rw [stubLines_cons, stubLines_cons, hturn]

/-- **A recognised procedure is emptied.** -/
theorem stubLines_procedure {p : Procedure} (h : p.Recognised targets) (rest : List Line) :
    stubLines targets .outside (p.lines ++ rest) = p.emptied ++
      stubLines targets .outside rest := by
  have hopen : stubTurn targets .outside (lineCode p.opener) = (.spec 0, true) := by
    simp [stubTurn, h.opener]
  have hlast : stubLines targets (.body 1) (p.last :: rest) =
      p.last :: stubLines targets .outside rest := by
    obtain ⟨ho, he⟩ := procEnd_of_closes h.last
    rw [stubLines_cons]
    simp [stubTurn, bodyTurn, ho, he]
  have hfirst : ∀ l, (p.body ++ p.last :: rest).head? = some l →
      interfaceOpen (lineCode l) = false ∧ endsSpec (lineCode l) = true := by
    intro l hl
    apply h.first l
    cases hb : p.body with
    | nil =>
      rw [hb] at hl
      exact hl
    | cons x xs =>
      rw [hb] at hl
      exact hl
  simp only [Procedure.lines, Procedure.head, Procedure.emptied, cons_append,
    append_assoc, nil_append]
  rw [stubLines_cons, hopen, stubLines_spec h.openerRest, stubLines_specItems h.spec,
    stubLines_first hfirst,
    stubLines_body h.body, hlast]
  rfl

/-- Every piece of a recognised source is left as it should be. -/
theorem stubLines_items {items : List SourceItem} (h : ∀ i ∈ items, i.Recognised targets) :
    stubLines targets .outside (items.flatMap SourceItem.lines) =
      items.flatMap SourceItem.emptied := by
  induction items with
  | nil => rfl
  | cons i items ih =>
    have hrest := ih (fun i hi => h i (mem_cons_of_mem _ hi))
    have hi := h i mem_cons_self
    rw [flatMap_cons, flatMap_cons, ← hrest]
    cases i with
    | line l =>
      have hone : ∀ l' ∈ [l], opensTarget targets (lineCode l') = false := by
        intro l' hl'
        rw [mem_singleton.1 hl']
        exact hi
      exact stubLines_outside hone _
    | procedure p =>
      rcases hi with hi | hi
      · exact stubLines_procedure hi _
      · have hemptied : p.emptied = p.lines := by simp [Procedure.emptied, Procedure.lines, hi.body]
        simp only [SourceItem.lines, SourceItem.emptied]
        rw [hemptied]
        exact stubLines_outside hi.lines _

/-- The lines of a text make up the text. -/
theorem flatten_splitKeepFrom (acc : Line) (text : Text) :
    (splitKeepFrom acc text).flatten = acc.reverse ++ text := by
  fun_induction splitKeepFrom acc text with
  | case1 => simp
  | case2 acc h => simp
  | case3 acc c r h ih => simp [ih]
  | case4 acc c r h ih => simp [ih]

/-- **The pass empties the procedures of every recognised source**, and keeps the rest as it is. -/
theorem stubProcedureBodies_empties {names : List Name} (s : StubSource names)
    (h : s.Recognised) : s.Emptied := by
  rw [StubSource.Emptied, stubProcedureBodies]
  by_cases hnames : names = []
  · have hitems : s.items.flatMap SourceItem.emptied = s.items.flatMap SourceItem.lines := by
      apply List.flatMap_congr
      intro i hi
      obtain ⟨l, rfl⟩ := s.named hnames i hi
      rfl
    rw [if_pos hnames, hitems, ← s.lines_eq, flatten_splitKeepFrom]
    rfl
  · rw [if_neg hnames, s.lines_eq, stubLines_items h]

/-! ## A callback and an internal procedure -/

/-- The interface of the callback `f` holds the one of its own argument. -/
def haloProcedure : Procedure where
  opener := "pure subroutine halo(f, a)\n".toList
  openerRest := []
  spec := [.block "  interface\n".toList
      ["    real function f(g)\n".toList, "      interface\n".toList,
        "        real function g()\n".toList, "        end function\n".toList,
        "      end interface\n".toList, "    end function\n".toList]
      "  end interface\n".toList,
    .line "  real :: a\n".toList]
  body := ["  a = half(a)\n".toList, "contains\n".toList, "  real function half(x)\n".toList,
    "    half = x / 2\n".toList, "  end function half\n".toList]
  last := "end subroutine halo\n".toList

def haloSource : StubSource ["Halo".toList] where
  text := (["contains\n".toList] ++ haloProcedure.lines ++ ["end module\n".toList]).flatten
  items := [.line "contains\n".toList, .procedure haloProcedure, .line "end module\n".toList]
  lines_eq := by decide +kernel
  named := by
    intro h
    cases h

theorem haloProcedure_recognised : haloProcedure.Recognised ["halo".toList] where
  opener := by decide +kernel
  openerRest := forall_mem_nil _
  spec := forall_mem_cons.2 ⟨⟨by decide +kernel, by decide +kernel, by decide +kernel⟩,
    forall_mem_singleton.2 ⟨by decide +kernel, by decide +kernel⟩⟩
  first := by
    intro l hl
    obtain rfl := Option.some.inj hl
    decide +kernel
  body := by decide +kernel
  last := by decide +kernel

theorem haloSource_emptied : haloSource.Emptied :=
  stubProcedureBodies_empties haloSource (forall_mem_cons.2 ⟨by
    show opensTarget _ _ = false
    decide +kernel, forall_mem_cons.2 ⟨Or.inl haloProcedure_recognised,
      forall_mem_singleton.2 (by
        show opensTarget _ _ = false
        decide +kernel)⟩⟩)

/-! ## An opening statement of two lines -/

/-- The second line of the opening statement begins with no `&`. -/
def continuedOpener : StubSource ["halo".toList] where
  text := "subroutine halo(a, &\n  b)\n  real :: a, b\n  a = b\nend subroutine\n".toList
  items := [.procedure
    { opener := "subroutine halo(a, &\n".toList
      openerRest := ["  b)\n".toList]
      spec := [.line "  real :: a, b\n".toList]
      body := ["  a = b\n".toList]
      last := "end subroutine\n".toList }]
  lines_eq := by decide
  named := by
    intro h
    cases h

/-- **The opening statement is cut off**: its second line is taken for the first executable
statement. -/
theorem not_emptied_continuedOpener : ¬ continuedOpener.Emptied := by
  unfold StubSource.Emptied
  decide

end Preprocess
