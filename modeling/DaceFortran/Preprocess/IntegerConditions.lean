/-
# `preprocess_fortran`

A bare `IF (x)` becomes `IF (x /= 0)` for every name `x` that some `INTEGER` declaration of
the whole text lists.  The text is scanned as it is: comments, character literals and the
scopes of names are not looked at.
-/
import DaceFortran.Lib.Substitution
import DaceFortran.Preprocess.StubBodies

namespace Preprocess

open Substitution

/-- `str.lower` -/
def lower (nm : List Char) : Name := nm.map Char.toLower

/-! ## `_INTEGER_DECL_RE` -/

/-- `(?:\s*\([^)]*\))?` -/
def skipGroup (text : Text) : Text := (parenthesized (skipSpace text)).getD text

/-- `[A-Z_]` -/
def isAttributeChar (c : Char) : Bool := c.isAlpha || decide (c = '_')

/-- `\s*,\s*[A-Z_]+(?:\s*\([^)]*\))?` -/
def declAttribute (text : Text) : Option Text :=
  match skipSpace text with
  | ',' :: r =>
    let s := skipSpace r
    if s.head?.any isAttributeChar then some (skipGroup (s.dropWhile isAttributeChar)) else none
  | _ => none

/-- The attributes of a declaration, at most `n`. -/
def skipDeclAttributes : ℕ → Text → Text
  | 0, r => r
  | n + 1, r =>
    match declAttribute r with
    | some s => skipDeclAttributes n s
    | none => r

/-- `[^\n!]` -/
def inDeclList (c : Char) : Bool := decide (c.toNat ≠ 10 ∧ c ≠ '!')

/-- An `INTEGER` declaration: the text of its list and the length of the match. -/
structure IntegerDecl where
  list : Text
  width : ℕ

/-- `\s*([^\n!]+)`: the list and what is behind it.  Where nothing but blanks stands before the end
of the line, the last of them is the list. -/
def declList (text : Text) : Option (Text × Text) :=
  let s := skipSpace text
  if (s.takeWhile inDeclList) ≠ [] then some (s.takeWhile inDeclList, s.dropWhile inDeclList)
  else ((text.takeWhile isSpace).reverse.find? inDeclList).map fun c => ([c], s)

/-- `_INTEGER_DECL_RE` at the head of a text. -/
def matchIntegerDecl (prev : Option Char) (text : Text) : Option IntegerDecl :=
  if prev.any isWord then none
  else
    (wholeKeyword "integer".toList text).bind fun r =>
      let s := skipGroup r
      match skipSpace (skipDeclAttributes s.length s) with
      | ':' :: ':' :: t => (declList t).map fun p => ⟨p.1, text.length - p.2.length⟩
      | _ => none

/-- `_INTEGER_DECL_RE` -/
def integerDeclRe : Pattern Char IntegerDecl where
  matchHead := matchIntegerDecl
  width := IntegerDecl.width
  matchHead_nil prev := by
    unfold matchIntegerDecl
    split
    · rfl
    · rfl

/-! ## `_collect_integer_scalar_names` -/

/-- `str.strip` -/
def strip (text : Text) : Text := ((skipSpace text).reverse.dropWhile isSpace).reverse

/-- The name that one item of a list is taken for. -/
def itemName (tok : Text) : Option Name :=
  let head := strip ((strip tok).takeWhile (fun c => !decide (c = '=')))
  if '(' ∈ head then none
  else
    let name := head.takeWhile (fun c => !isSpace c)
    let letters := name.filter (fun c => !decide (c = '_'))
    if letters ≠ [] ∧ letters.all Char.isAlphanum ∧
      !(name.head?.any Char.isDigit) then some (lower name) else none

/-- The names of one declaration. -/
def listNames (list : Text) : List Name :=
  ((list.takeWhile (fun c => !decide (c = '!'))).splitOn ',').filterMap itemName

/-- `_collect_integer_scalar_names` -/
def collectIntegerScalarNames (source : Text) : List Name :=
  (integerDeclRe.findAll 0 none source).flatMap fun d => listNames d.list

/-! ## `_BARE_IF_RE` -/

/-- A bare `IF`: its three groups. -/
structure BareIf where
  opening : Text
  ident : List Char
  closing : Text
  deriving DecidableEq

namespace BareIf

/-- `m.group(0)` -/
def text (m : BareIf) : Text := m.opening ++ m.ident ++ m.closing

/-- The condition compared with 0. -/
def rewritten (m : BareIf) : Text := m.opening ++ m.ident ++ " /= 0".toList ++ m.closing

end BareIf

/-- `(\s*\))` behind a name. -/
def matchClosing (text : Text) : Option Text :=
  match skipSpace text with
  | ')' :: _ => some (text.takeWhile isSpace ++ [')'])
  | _ => none

/-- `([A-Za-z_]\w*)(\s*\))` behind the opening. -/
def matchCondition (opening text : Text) : Option BareIf :=
  if text.head?.any isAttributeChar then
    (matchClosing (text.dropWhile isWord)).map fun closing =>
      ⟨opening, text.takeWhile isWord, closing⟩
  else none

/-- `_BARE_IF_RE` at the head of a text. -/
def matchBareIf (prev : Option Char) (text : Text) : Option BareIf :=
  if prev.any isWord then none
  else
    match text with
    | i :: f :: r =>
      if i.toLower = 'i' ∧ f.toLower = 'f' then
        match skipSpace r with
        | '(' :: s => matchCondition (i :: f :: r.takeWhile isSpace ++ '(' :: s.takeWhile isSpace)
            (skipSpace s)
        | _ => none
      else none
    | _ => none

/-- `_BARE_IF_RE` -/
def bareIfRe : Pattern Char BareIf where
  matchHead := matchBareIf
  width m := m.text.length
  matchHead_nil prev := by
    unfold matchBareIf
    split
    · rfl
    · rfl

/-! ## `preprocess_fortran` -/

/-- `_rewrite` -/
def rewriteCondition (intNames : List Name) (m : BareIf) : Text :=
  if lower m.ident ∈ intNames then m.rewritten else m.text

/-- `preprocess_fortran` -/
def preprocessFortran (source : Text) : Text :=
  let intNames := collectIntegerScalarNames source
  if intNames = [] then source
    else bareIfRe.sub (fun _ m => rewriteCondition intNames m) 0 0 none source

/-- The text with the bare `IF`s at the positions of `E` rewritten. -/
def rewriteIfs (E : ℕ → Bool) (source : Text) : Text :=
  bareIfRe.sub (fun p m => if E p then m.rewritten else m.text) 0 0 none source

/-! ## What Fortran reads -/

/-- Where a reader of free-form text is: in code, in a comment, perhaps between the lines of a
literal, in a literal whose line so far ends in `&` or not, or before the rest of a literal on a
later line. -/
inductive Lex where
  | code
  | comment (resumes : Option Char)
  | literal (quote : Char) (continued : Bool)
  | resume (quote : Char)
  deriving DecidableEq

/-- One character of a literal. -/
def literalStep (quote : Char) (continued : Bool) (c : Char) : Lex :=
  if c = quote then .code
  else if c.toNat = 10 then if continued then .resume quote else .code
  else if c = '&' then .literal quote true
  else if isSpace c then .literal quote continued
  else .literal quote false

/-- One character read. -/
def lexStep : Lex → Char → Lex
  | .code, c => if c = '!' then .comment none else if c.toNat = 34 ∨
    c.toNat = 39 then .literal c false else .code
  | .comment resumes, c => if c.toNat = 10 then (resumes.map Lex.resume).getD .code
      else .comment resumes
  | .literal quote continued, c => literalStep quote continued c
  | .resume quote, c =>
    if c = '!' then .comment (some quote)
    else if c = '&' then .literal quote false
    else if isSpace c then .resume quote
    else literalStep quote false c

end Preprocess
