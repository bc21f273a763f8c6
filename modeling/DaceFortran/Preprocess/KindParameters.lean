/-
# `normalize_kind_parameters`

The names of a table of kind aliases become numbers where they stand as a kind: behind
`KIND =`, alone in the parentheses of a type, behind the `_` of a literal.  A name that some
line binds to an integer is taken out of the table first, for the whole source.  Only the
first binding of a line is seen, and only in its first entity.
-/
import DaceFortran.Preprocess.IntegerConditions
import Mathlib.Data.List.Sort

namespace Preprocess.KindParameters

open Substitution

/-! ## `_scan_line` -/

/-- `ScannedLine` -/
structure ScannedLine where
  comment : ℕ
  strings : List (ℕ × ℕ)
  deriving DecidableEq

/-- `_scan_line` from a position, outside of a character literal or inside the one of a quote and a
start. -/
def scanFrom : ℕ → Option (Char × ℕ) → Line → ScannedLine
  | pos, none, [] => ⟨pos, []⟩
  | pos, some (_, start), [] => ⟨pos, [(start, pos)]⟩
  | pos, none, c :: r =>
    if c.toNat = 34 ∨ c.toNat = 39 then scanFrom (pos + 1) (some (c, pos)) r
    else if c = '!' then ⟨pos, []⟩
    else scanFrom (pos + 1) none r
  | pos, some (_, start), [_] => ⟨pos + 1, [(start, pos + 1)]⟩
  | pos, some (quote, start), c :: d :: r =>
    if c = quote then
      -- a doubled quote stays in the literal
      if d = quote then scanFrom (pos + 2) (some (quote, start)) r
      else
        let rest := scanFrom (pos + 1) none (d :: r)
        ⟨rest.comment, (start, pos + 1) :: rest.strings⟩
    else scanFrom (pos + 1) (some (quote, start)) (d :: r)

/-- `_scan_line` -/
def scanLine (body : Line) : ScannedLine := scanFrom 0 none body

/-! ## `_local_kind_bindings` -/

/-- `(\d+)\b` -/
def takeValue (text : Text) : Option ℕ :=
  let digits := text.takeWhile Char.isDigit
  if digits ≠ [] ∧ atWordEnd (text.dropWhile Char.isDigit) then
    some (digits.foldl (fun n c => 10 * n + (c.toNat - 48)) 0)
  else none

/-- `\s*([A-Za-z_]\w*)\s*=\s*(\d+)\b` -/
def matchBinding (text : Text) : Option (Name × ℕ) :=
  let s := skipSpace text
  if s.head?.any isAttributeChar then
    match skipSpace (s.dropWhile isWord) with
    | '=' :: r => (takeValue (skipSpace r)).map fun v => (lower (s.takeWhile isWord), v)
    | _ => none
  else none

/-- `[^:\n]` -/
def inAttributes (c : Char) : Bool := decide (c ≠ ':' ∧ c.toNat ≠ 10)

/-- `_PARAM_BIND_RE` at the head of a text: its name and its value. -/
def matchParamBind (prev : Option Char) (text : Text) : Option (Name × ℕ) :=
  if prev.any isWord then none
  else
    (wholeKeyword "integer".toList text).bind fun r =>
      match r.dropWhile inAttributes with
      | ':' :: ':' :: s => matchBinding s
      | _ => none

/-- `_PARAM_BIND_RE`, for a first match: nothing is looked for behind it. -/
def paramBindRe : Pattern Char (Name × ℕ) where
  matchHead := matchParamBind
  width _ := 1
  matchHead_nil prev := by
    unfold matchParamBind
    split
    · rfl
    · rfl

/-- The binding that is seen on a line. -/
def lineBinding (raw : Line) : Option (Name × ℕ) := paramBindRe.search none (codeOf raw)

/-- `out.setdefault` -/
def setDefault (out : List (Name × ℕ)) (b : Name × ℕ) : List (Name × ℕ) :=
  if (out.lookup b.1).isSome then out else out ++ [b]

/-- `_local_kind_bindings` -/
def localKindBindings (source : Text) : List (Name × ℕ) :=
  ((splitlines source).filterMap lineBinding).foldl setDefault []

/-! ## The table of aliases -/

/-- `_DEFAULT_KIND_ALIASES` -/
def defaultKindAliases : List (Name × Option ℤ) :=
  [("wp".toList, some 8), ("rp".toList, some 8), ("sp".toList, some 4), ("dp".toList, some 8),
    ("qp".toList, some 16)]

/-- `aliases[k.lower()] = v` -/
def setAlias (aliases : List (Name × Option ℤ)) (kv : List Char × Option ℤ) :
    List (Name × Option ℤ) :=
  (lower kv.1, kv.2) :: aliases.filter fun p => !decide (p.1 = lower kv.1)

/-- The aliases that are not opted out of. -/
def kindAliases (kindMap : List (List Char × Option ℤ)) : List (Name × ℤ) :=
  (kindMap.foldl setAlias defaultKindAliases).filterMap fun p => p.2.map fun v => (p.1, v)

/-- The aliases without the locally bound ones. -/
def openAliases (kindMap : List (List Char × Option ℤ)) (source : Text) : List (Name × ℤ) :=
  (kindAliases kindMap).filter fun p => !decide (p.1 ∈ (localKindBindings source).map Prod.fst)

/-! ## The places of a kind -/

/-- A kind that is a name: the text before it and behind it that the match holds. -/
structure KindUse where
  lead : Text
  symbol : List Char
  trail : Text
  deriving DecidableEq

namespace KindUse

/-- `m.group(0)` -/
def text (u : KindUse) : Text := u.lead ++ u.symbol ++ u.trail

/-- The name of the kind. -/
def name (u : KindUse) : Name := lower u.symbol

/-- The match with a number in place of the name. -/
def numbered (u : KindUse) (n : ℤ) : Text := u.lead ++ (toString n).toList ++ u.trail

/-- The match begins with `REAL` or `INTEGER`. -/
def HasConversionWord (u : KindUse) : Prop :=
  lower (u.lead.takeWhile isWord) ∈ ["real".toList, "integer".toList]

instance (u : KindUse) : Decidable u.HasConversionWord := inferInstanceAs (Decidable (_ ∈ _))

end KindUse

/-- `([A-Za-z_]\w*)\b` behind `lead`. -/
def matchSymbol (lead text : Text) : Option KindUse :=
  if text.head?.any isAttributeChar then some ⟨lead, text.takeWhile isWord, []⟩ else none

/-- `_KIND_EQ_RE` at the head of a text. -/
def matchKindEq (prev : Option Char) (text : Text) : Option KindUse :=
  if prev.any isWord then none
  else
    (keyword "kind".toList text).bind fun r =>
      match skipSpace r with
      | '=' :: s => matchSymbol (text.take 4 ++ r.takeWhile isSpace ++ '=' :: s.takeWhile isSpace)
          (skipSpace s)
      | _ => none

/-- `([A-Za-z_]\w*)(\s*\))` behind `lead`. -/
def matchSoleArgument (lead text : Text) : Option KindUse :=
  if text.head?.any isAttributeChar then
    (matchClosing (text.dropWhile isWord)).map fun closing => ⟨lead, text.takeWhile isWord, closing⟩
  else none

def typeKeywords : List (List Char) := ["real", "integer", "complex", "logical"].map String.toList

/-- One alternative of `_TYPE_PAREN_RE`. -/
def matchTypeKeyword (text : Text) (k : List Char) : Option KindUse :=
  (keyword k text).bind fun r =>
    match skipSpace r with
    | '(' :: s =>
      matchSoleArgument (text.take k.length ++ r.takeWhile isSpace ++ '(' :: s.takeWhile isSpace)
        (skipSpace s)
    | _ => none

/-- `_TYPE_PAREN_RE` at the head of a text. -/
def matchTypeParen (prev : Option Char) (text : Text) : Option KindUse :=
  if prev.any isWord then none else typeKeywords.findSome? (matchTypeKeyword text)

/-- `(?:\.\d*)?`, and the rest. -/
def takeFraction (text : Text) : Text × Text :=
  match text with
  | '.' :: r => ('.' :: r.takeWhile Char.isDigit, r.dropWhile Char.isDigit)
  | _ => ([], text)

def isExponentChar (c : Char) : Bool := decide (c ∈ "eEdD".toList)

def isSign (c : Char) : Bool := decide (c ∈ "+-".toList)

/-- `[+-]?\d+` behind the letter of an exponent, and the rest. -/
def takeExponentDigits (e : Char) (r : Text) : Option (Text × Text) :=
  let s := (r.take 1).filter isSign
  let t := r.drop s.length
  if t.head?.any Char.isDigit then some (e :: s ++ t.takeWhile Char.isDigit,
    t.dropWhile Char.isDigit) else none

/-- `(?:[eEdD][+-]?\d+)?`, and the rest. -/
def takeExponent (text : Text) : Text × Text :=
  match text with
  | e :: r => if isExponentChar e then (takeExponentDigits e r).getD ([], text) else ([], text)
  | [] => ([], text)

/-- `(\d+(?:\.\d*)?(?:[eEdD][+-]?\d+)?)`, and the rest. -/
def takeNumber (text : Text) : Text × Text :=
  let f := takeFraction (text.dropWhile Char.isDigit)
  let e := takeExponent f.2
  (text.takeWhile Char.isDigit ++ f.1 ++ e.1, e.2)

/-- `_LITERAL_KIND_RE` at the head of a text. -/
def matchLiteralKind (prev : Option Char) (text : Text) : Option KindUse :=
  if prev.any isWord then none
  else if text.head?.any Char.isDigit then
    match (takeNumber text).2 with
    | '_' :: s => matchSymbol ((takeNumber text).1 ++ ['_']) s
    | _ => none
  else none

/-- `_KIND_EQ_RE` -/
def kindEqRe : Pattern Char KindUse where
  matchHead := matchKindEq
  width u := u.text.length
  matchHead_nil prev := by
    unfold matchKindEq
    split
    · rfl
    · rfl

/-- `_TYPE_PAREN_RE` -/
def typeParenRe : Pattern Char KindUse where
  matchHead := matchTypeParen
  width u := u.text.length
  matchHead_nil prev := by
    unfold matchTypeParen
    split
    · rfl
    · rfl

/-- `_LITERAL_KIND_RE` -/
def literalKindRe : Pattern Char KindUse where
  matchHead := matchLiteralKind
  width u := u.text.length
  matchHead_nil prev := by
    unfold matchLiteralKind
    split
    · rfl
    · rfl

/-! ## `normalize_kind_parameters` -/

/-- A match, replaced by a number. -/
structure KindEdit where
  start : ℕ
  use : KindUse
  number : ℤ
  deriving DecidableEq

/-- `m.end()` -/
def KindEdit.stop (e : KindEdit) : ℕ := e.start + e.use.text.length

/-- `not (m.end() <= eb or m.start() >= ee)` -/
def overlaps (e f : KindEdit) : Bool := !(decide (e.stop ≤ f.start) || decide (f.stop ≤ e.start))

/-- A line without its end. -/
def bodyOf (line : Line) : Line :=
  (line.reverse.dropWhile fun c => decide (c.toNat ∈ [10, 13])).reverse

/-- The code of a line: all before its comment. -/
def lineCode (body : Line) : Line := body.take (scanLine body).comment

/-- `any(s <= m.start() < e for s, e in strings)` -/
def inLiteral (body : Line) (p : ℕ) : Bool :=
  (scanLine body).strings.any fun s => decide (s.1 ≤ p ∧ p < s.2)

/-- The matches of one pattern outside of character literals. -/
def kindUses (re : Pattern Char KindUse) (body : Line) : List (ℕ × KindUse) :=
  (re.finditer 0 0 none (lineCode body)).filter fun m => !inLiteral body m.1

/-- The matches whose name is in the table, as edits. -/
def resolve (aliases : List (Name × ℤ)) (uses : List (ℕ × KindUse)) : List KindEdit :=
  uses.filterMap fun m => (aliases.lookup m.2.name).map fun n => ⟨m.1, m.2, n⟩

/-- The edits of a line, in the order of the rules. -/
def lineEdits (aliases : List (Name × ℤ)) (body : Line) : List KindEdit :=
  keepApart overlaps [] (resolve aliases (kindUses kindEqRe body) ++
    resolve aliases (kindUses typeParenRe body) ++
    resolve aliases (kindUses literalKindRe body))

/-- `code[:begin] + repl + code[fin:]` -/
def applyEdit (code : Line) (e : KindEdit) : Line :=
  code.take e.start ++ e.use.numbered e.number ++ code.drop e.stop

/-- A line with its edits made, from the right. -/
def rewriteLine (edits : List KindEdit) (line : Line) : Line :=
  let body := bodyOf line
  (edits.insertionSort fun e f => f.start ≤ e.start).foldl applyEdit (lineCode body) ++
    body.drop (scanLine body).comment ++ line.drop body.length

/-- `normalize_kind_parameters` -/
def normalizeKindParameters (source : Text) (kindMap : List (List Char × Option ℤ))
    (passthrough : Bool) : Text :=
  if passthrough then source
  else
    let aliases := openAliases kindMap source
    if aliases = [] then source
    else ((splitKeepFrom [] source).map fun line => rewriteLine
      (lineEdits aliases (bodyOf line)) line).flatten

/-- The edits that are made in a line of the source. -/
def editsOf (source : Text) (kindMap : List (List Char × Option ℤ)) (passthrough : Bool)
    (line : Line) : List KindEdit :=
  if passthrough then [] else lineEdits (openAliases kindMap source) (bodyOf line)

/-! ## What the names denote -/

/-- What a declaration makes of a name. -/
inductive Denotation where
  | integerParameter (value : ℕ)
  | variable
  deriving DecidableEq

/-- A text with what is read in it: the declarations of its units, each the names it declares, and
the places, line and column, where `REAL(x)` or `INTEGER(x)` is a call. -/
structure Reading where
  text : Text
  units : List (List (List (Name × Denotation)))
  conversionAt : ℕ → ℕ → Bool

namespace Reading

variable (R : Reading) (kindMap : List (List Char × Option ℤ)) (passthrough : Bool)

/-- Some declaration of some unit gives the name as this. -/
def Declares (nm : Name) (d : Denotation) : Prop := ∃ unit ∈ R.units, ∃ decl ∈ unit, (nm, d) ∈ decl

/-- No name bound to an integer is replaced by another one, and no variable is replaced in a
conversion. -/
def KeepsDenotations : Prop :=
  ∀ l line, (splitKeepFrom [] R.text)[l]? = some line →
    ∀ e ∈ editsOf R.text kindMap passthrough line,
    (∀ v, R.Declares e.use.name (.integerParameter v) → e.number = v) ∧
      (R.Declares e.use.name .variable → e.use.HasConversionWord → R.conversionAt l e.start = false)

/-- On some line, the first `INTEGER` declaration with a first entity `nm = <int>` has this name. -/
def SeenOnLine (nm : Name) : Prop := ∃ raw ∈ splitlines R.text, ∃ v, lineBinding raw = some (nm, v)

/-- A kind of the line that a rule reaches: no `KIND = <alias>` holds the keyword of its
`REAL(x)`. -/
def Reached (body : Line) (m : ℕ × KindUse) : Prop :=
  m ∈ kindUses kindEqRe body ∨ m ∈ kindUses literalKindRe body ∨
    m ∈ kindUses typeParenRe body ∧
      ∀ k ∈ kindUses kindEqRe body, ((kindAliases kindMap).lookup k.2.name).isSome →
      ¬ R.SeenOnLine k.2.name → k.1 + k.2.text.length ≤ m.1 ∨ m.1 + m.2.text.length ≤ k.1

/-- The name stands as a kind somewhere. -/
def UsedAsKind (nm : Name) : Prop :=
  ∃ line ∈ splitKeepFrom [] R.text, ∃ m, R.Reached kindMap (bodyOf line) m ∧ m.2.name = nm

/-- The name stands in a conversion somewhere. -/
def Converted (nm : Name) : Prop :=
  ∃ l line, (splitKeepFrom [] R.text)[l]? = some line ∧ ∃ m, R.Reached kindMap (bodyOf line) m ∧
    m.2.name = nm ∧
    m.2.HasConversionWord ∧ R.conversionAt l m.1 = true

/-- Every name bound to another integer than the table has for it is seen on a line, if it is used
as a kind. -/
def ParametersSeen : Prop :=
  ∀ nm v n, R.Declares nm (.integerParameter v) → (kindAliases kindMap).lookup nm = some n → n ≠ v →
    R.UsedAsKind kindMap nm → R.SeenOnLine nm

/-- Every variable with the name of an alias is seen on a line, if it stands in a conversion. -/
def VariablesSeen : Prop :=
  ∀ nm n, R.Declares nm .variable → (kindAliases kindMap).lookup nm = some n →
    R.Converted kindMap nm →
    R.SeenOnLine nm

end Reading

end Preprocess.KindParameters
