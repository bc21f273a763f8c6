/-
# `_logical_lines`

The statements of a free-form source, read line by line: literals are blanked and comments
dropped (`scan`), a trailing `&` keeps what was read for the next line, preprocessor lines only
count the open conditionals, and what is complete is split at the semicolons.

Beside it stands what a statement's text says to Fortran (`glyphs`): its characters without the
blanks, each with what stands between it and the one before.  A source's own reading
(`fortranText`) is given by the rules of the free source form.
-/
import Mathlib.Data.List.SplitBy

namespace OutsideRefs

abbrev Line := List Char

/-! ## The code -/

/-- `Statement` -/
structure Statement where
  text : List Char
  line : ℕ
  guarded : Bool
deriving DecidableEq

def isBlank (c : Char) : Bool := c.isWhitespace

def isQuote (c : Char) : Bool := c = '\'' || c = '"'

def lstrip (t : List Char) : List Char := t.dropWhile isBlank

def rstrip : List Char → List Char
  | [] => []
  | c :: t => if rstrip t = [] ∧ isBlank c then [] else c :: rstrip t

def strip (t : List Char) : List Char := rstrip (lstrip t)

/-- The characters of a line with its literals blanked and its comment dropped, and the quote of
the literal it ends in. -/
def scan : Option Char → List Char → List Char × Option Char
  | quote, [] => ([], quote)
  | some q, [c] => if c = q then ([c], none) else ([], some q)
  | some q, c :: d :: rest =>
    if c = q then
      -- quotes double inside a literal
      if d = q then scan (some q) rest
      else (c :: (scan none (d :: rest)).1, (scan none (d :: rest)).2)
    else scan (some q) (d :: rest)
  | none, c :: rest =>
    if isQuote c then (c :: (scan (some c) rest).1, (scan (some c) rest).2)
    else if c = '!' then ([], none)
    else (c :: (scan none rest).1, (scan none rest).2)

/-- `re.sub(r"\s+", " ", text)` -/
def collapse : List Char → List Char
  | [] => []
  | c :: t =>
    if isBlank c then
      if (collapse t).head? = some ' ' then collapse t else ' ' :: collapse t
    else c :: collapse t

/-- `full.split(";")` -/
def splitSemicolons : List Char → List (List Char)
  | [] => [[]]
  | c :: t =>
    if c = ';' then [] :: splitSemicolons t
    else (c :: (splitSemicolons t).headD []) :: (splitSemicolons t).tail

/-- What the loop over the lines carries. -/
structure State where
  out : List Statement
  depth : ℕ
  pending : List Char
  start : ℕ
  guardedAtStart : Bool

def isDirective (raw : Line) : Bool := (lstrip raw).head? = some '#'

/-- The word of a preprocessor line. -/
def directiveWord (raw : Line) : List Char :=
  (strip ((strip raw).drop 1)).takeWhile fun c => !isBlank c

/-- The conditionals open after a preprocessor line. -/
def directiveDepth (depth : ℕ) (word : List Char) : ℕ :=
  if word = "if".toList ∨ word = "ifdef".toList ∨ word = "ifndef".toList then depth + 1
  else if word = "endif".toList then depth - 1
  else depth

/-- The code of a line; a literal that goes on in the next line is closed. -/
def codeOf (raw : Line) : List Char :=
  rstrip (scan none raw).1 ++ (scan none raw).2.toList

/-- The line's part of its statement. -/
def bodyOf (pending : List Char) (raw : Line) : List Char :=
  let body := strip (codeOf raw)
  if pending ≠ [] ∧ body.head? = some '&' then body.drop 1 else body

/-- `Statement(re.sub(r"\s+", " ", part.lower()), start, guarded_at_start)` for the parts that hold
something. -/
def statementsOf (full : List Char) (start : ℕ) (guarded : Bool) : List Statement :=
  ((splitSemicolons full).map strip).filterMap fun part =>
    if part = [] then none else some ⟨collapse (part.map Char.toLower), start, guarded⟩

/-- One line of the loop. -/
def lineStep (st : State) (number : ℕ) (raw : Line) : State :=
  if isDirective raw then
    { st with depth := directiveDepth st.depth (directiveWord raw) }
  else
    let start := if st.pending = [] then number else st.start
    let guarded := if st.pending = [] then decide (0 < st.depth) else st.guardedAtStart
    let body := bodyOf st.pending raw
    if body.getLast? = some '&' then
      { st with pending := st.pending ++ body.dropLast ++ [' '], start := start,
                guardedAtStart := guarded }
    else
      { st with out := st.out ++ statementsOf (strip (st.pending ++ body)) start guarded,
                pending := [], start := start, guardedAtStart := guarded }

def linesFrom (number : ℕ) (st : State) : List Line → State
  | [] => st
  | raw :: rest => linesFrom (number + 1) (lineStep st number raw) rest

def initial : State := ⟨[], 0, [], 0, false⟩

/-- `_logical_lines` of `text.splitlines()` -/
def logicalLines (lines : List Line) : List Statement := (linesFrom 1 initial lines).out

/-! ## What a text says -/

/-- What stands between a character and the one before it: the end of a statement, a blank or a
change of token, or nothing inside one token. -/
inductive Link
  | apart
  | spaced
  | glued
deriving DecidableEq

/-- A character of a statement (letters without their case). -/
structure Glyph where
  char : Char
  link : Link
deriving DecidableEq

/-- What precedes the next character. -/
inductive Ctx
  | apart
  | spaced
  | after (c : Char)
deriving DecidableEq

def isWord (c : Char) : Bool := c.isAlphanum || c = '_' || c = '.'

/-- The operators and delimiters of two characters. -/
def pairs : List (Char × Char) :=
  [('*', '*'), ('/', '/'), ('=', '='), ('/', '='), ('<', '='), ('>', '='), ('=', '>'), (':', ':'),
    ('(', '/'), ('/', ')')]

/-- Two characters that belong to one token when nothing stands between them: a name's, a
number's, an operator's, the two delimiters of a blanked literal. -/
def joins (c d : Char) : Bool :=
  isWord c && isWord d || pairs.contains (c, d) || isQuote c && c = d

namespace Ctx

def blank : Ctx → Ctx
  | apart => apart
  | _ => spaced

/-- Whether the character continues the token before it. -/
def glues : Ctx → Char → Bool
  | after c, d => joins c d
  | _, _ => false

def link : Ctx → Char → Link
  | apart, _ => .apart
  | ctx, d => if ctx.glues d then .glued else .spaced

/-- The glyph of a character; blanks and the semicolon have none. -/
def mark (ctx : Ctx) (c : Char) : List Glyph :=
  if isBlank c ∨ c = ';' then [] else [⟨c.toLower, ctx.link c.toLower⟩]

def next (ctx : Ctx) (c : Char) : Ctx :=
  if isBlank c then ctx.blank else if c = ';' then apart else after c.toLower

/-- What precedes the character after a text. -/
def past (ctx : Ctx) (t : List Char) : Ctx := t.foldl next ctx

end Ctx

def glyphs : Ctx → List Char → List Glyph
  | _, [] => []
  | ctx, c :: t => ctx.mark c ++ glyphs (ctx.next c) t

/-- What a statement's text says. -/
def reading (t : List Char) : List Glyph := glyphs .apart t

/-! ## The free source form -/

/-- Where the reader of a source is: inside which literal, whether the line before is continued
and comment or blank lines came since, and what precedes the next character. -/
structure Form where
  openLit : Option Char
  continued : Bool
  interrupted : Bool
  ctx : Ctx
deriving DecidableEq

/-- A comment line or a line of blanks. -/
def isCommentLine (raw : Line) : Bool := lstrip raw = [] || (lstrip raw).head? = some '!'

/-- Whether the line opens with the `&` of a continuation. -/
def resumes (f : Form) (raw : Line) : Bool := f.continued && (lstrip raw).head? = some '&'

/-- The part of the line that is read: what follows a leading `&` continues the text directly, a
line without one continues it after a blank. -/
def resumeText (f : Form) (raw : Line) : List Char :=
  if resumes f raw then (lstrip raw).drop 1 else lstrip raw

def resumeCtx (f : Form) (raw : Line) : Ctx := if resumes f raw then f.ctx else f.ctx.blank

/-- The text without the `&` that continues it, and whether it had one. -/
def untrail (t : List Char) : List Char := if t.getLast? = some '&' then t.dropLast else t

/-- One line of a source in free form: what it adds, and where the reader is then. -/
def formLine (f : Form) (raw : Line) : List Glyph × Form :=
  if isDirective raw then ([], f)
  else if isCommentLine raw then ([], { f with interrupted := f.continued })
  else
    let r := scan f.openLit (resumeText f raw)
    let ctx := resumeCtx f raw
    match r.2 with
    | some q => (glyphs ctx r.1, ⟨some q, true, false, ctx.past r.1⟩)
    | none =>
      let t := rstrip r.1
      if t.getLast? = some '&' then
        (glyphs ctx (untrail t), ⟨none, true, false, ctx.past (untrail t)⟩)
      else (glyphs ctx t, ⟨none, false, false, .apart⟩)

def formFrom (f : Form) : List Line → List Glyph × Form
  | [] => ([], f)
  | raw :: rest =>
    ((formLine f raw).1 ++ (formFrom (formLine f raw).2 rest).1,
      (formFrom (formLine f raw).2 rest).2)

def start : Form := ⟨none, false, false, .apart⟩

/-- What the lines of a source say: the glyphs of its statements in order, the first of each
apart from what precedes it. -/
def fortranText (lines : List Line) : List Glyph := (formFrom start lines).1

/-- The statements of a text. -/
def statementsIn (gs : List Glyph) : List (List Glyph) := gs.splitBy fun _ g => g.link ≠ .apart

/-- The statements returned are those of the source, in order. -/
def Recovers (lines : List Line) : Prop :=
  (logicalLines lines).map (fun s => reading s.text) = statementsIn (fortranText lines)

instance (lines : List Line) : Decidable (Recovers lines) := by
  unfold Recovers
  infer_instance

-- the equations of the scans, made once for the proofs over them
attribute [local simp] scan rstrip glyphs splitSemicolons

end OutsideRefs
