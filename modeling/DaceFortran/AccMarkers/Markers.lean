/-
# `encode_acc_directives` and `decode_acc_directives`

Every logical `!$acc` directive of a source, its continuations joined, becomes a call of a
marker procedure, numbered through all sources; a table keeps the lines it stands for.  Heads
of the specification part stay as they are.  The other way, each marker call whose number is
in the table becomes its lines again.
-/
import DaceFortran.Preprocess.IntegerConditions

namespace Preprocess.AccMarkers

/-! ## The patterns -/

/-- `_ACC_SENTINEL_LINE_RE`: what is behind the sentinel. -/
def sentinelBody (line : Line) : Option Line :=
  match skipSpace line with
  | '!' :: r =>
    match skipSpace r with
    | '$' :: s => wholeKeyword "acc".toList (skipSpace s)
    | _ => none
  | _ => none

/-- `_ACC_SENTINEL_LINE_RE` -/
def isSentinel (line : Line) : Bool := (sentinelBody line).isSome

/-- `_ACC_SPEC_PART_HEADS` -/
def specPartHeads : List Name := ["declare", "routine"].map String.toList

/-- `[A-Za-z_]\w*` behind blanks, in lower case. -/
def directiveHead (body : Line) : Option Name :=
  let s := skipSpace body
  if s.head?.any isAttributeChar then some ((s.takeWhile isWord).map Char.toLower) else none

/-- The directive of this first line belongs to the specification part. -/
def inSpecPart (line : Line) : Bool :=
  ((sentinelBody line).bind directiveHead).any fun head => decide (head ∈ specPartHeads)

/-- `line.rstrip().endswith("&")` -/
def endsInAmpersand (line : Line) : Bool := (line.reverse.dropWhile isSpace).head? = some '&'

/-- `_ACC_MARKER_STEM` -/
def markerStem : Line := "dace_acc_dirmark_".toList

/-- `CALL dace_acc_dirmark_<n>` behind an indentation. -/
def markerCall (indent : Line) (n : ℕ) : Line :=
  indent ++ "CALL ".toList ++ markerStem ++ (toString n).toList

/-- `int` of a string of digits. -/
def digitsValue (digits : Line) : ℕ := digits.foldl (fun n c => 10 * n + (c.toNat - 48)) 0

/-- `(\d+)\s*$` -/
def markerDigits (line : Line) : Option ℕ :=
  let digits := line.takeWhile Char.isDigit
  if digits ≠ [] ∧ skipSpace (line.dropWhile Char.isDigit) =
    [] then some (digitsValue digits) else none

/-- `_ACC_MARKER_CALL_RE`: the number of a marker call. -/
def markerNumber (line : Line) : Option ℕ :=
  (keyword "call".toList (skipSpace line)).bind fun r =>
    if r.head?.any isSpace then (keyword markerStem (skipSpace r)).bind markerDigits else none

/-! ## `encode_acc_directives` -/

/-- What the encoding makes of a stretch of lines: they are kept, or a marker stands for them. -/
inductive Piece where
  | kept (lines : List Line)
  | marker (n : ℕ) (block : List Line)
  deriving DecidableEq

namespace Piece

/-- The lines of the source. -/
def source : Piece → List Line
  | kept lines => lines
  | marker _ block => block

/-- The lines of the encoded text. -/
def encoded : Piece → List Line
  | kept lines => lines
  | marker n block => [markerCall ((block.headD []).takeWhile isSpace) n]

/-- The entry of the table. -/
def entry : Piece → Option (ℕ × List Line)
  | kept _ => none
  | marker n block => some (n, block)

end Piece

/-- The continuation lines of a directive behind one of its lines. -/
def continuations : Line → List Line → List Line
  | _, [] => []
  | line, next :: rest =>
    if endsInAmpersand line && isSentinel next then next :: continuations next rest else []

/-- The pieces of the lines, `skip` of them being in the last one, from a counter. -/
def encodeFrom : ℕ → ℕ → List Line → List Piece
  | _, _, [] => []
  | skip + 1, counter, _ :: rest => encodeFrom skip counter rest
  | 0, counter, line :: rest =>
    if isSentinel line then
      let block := line :: continuations line rest
      if inSpecPart line then .kept block :: encodeFrom (block.length - 1) counter rest
      else .marker counter block :: encodeFrom (block.length - 1) (counter + 1) rest
    else .kept [line] :: encodeFrom 0 counter rest

/-- The counter behind some pieces. -/
def counterAfter (counter : ℕ) (pieces : List Piece) : ℕ :=
  counter + (pieces.filterMap Piece.entry).length

/-- The pieces of each source, with one counter. -/
def encodePieces : ℕ → List (Name × Text) → List (Name × Text × List Piece)
  | _, [] => []
  | counter, (name, text) :: rest =>
    let pieces := encodeFrom 0 counter (splitlines text)
    (name, text, pieces) :: encodePieces (counterAfter counter pieces) rest

/-- `"\n".join(lines)` -/
def joinLines (lines : List Line) : Text := List.intercalate ['\n'] lines

/-- The joined lines, with a line feed at the end if the text has one. -/
def rejoin (text : Text) (lines : List Line) : Text :=
  joinLines lines ++ if text.getLast? = some '\n' then ['\n'] else []

/-- `EncodedAccDirectives` -/
structure EncodedAccDirectives where
  sources : List (Name × Text)
  directives : List (ℕ × List Line)

/-- `encode_acc_directives` -/
def encodeAccDirectives (srcMap : List (Name × Text)) : EncodedAccDirectives where
  sources := (encodePieces 0 srcMap).map fun s => (s.1, rejoin s.2.1 (s.2.2.flatMap Piece.encoded))
  directives := (encodePieces 0 srcMap).flatMap fun s => s.2.2.filterMap Piece.entry

/-! ## `decode_acc_directives` -/

/-- The lines one line is decoded to. -/
def decodeLine (table : List (ℕ × List Line)) (line : Line) : List Line :=
  ((markerNumber line).bind fun n => table.lookup n).getD [line]

/-- `decode_acc_directives` -/
def decodeAccDirectives (text : Text) (table : List (ℕ × List Line)) : Text :=
  rejoin text ((splitlines text).flatMap (decodeLine table))

/-! ## Where a statement may stand -/

/-- The state of a reader between two lines: its lexical state, and whether the last statement line
ends in `&`. -/
abbrev LineState := Lex × Bool

/-- One character. -/
def stateStep (s : LineState) (c : Char) : LineState :=
  (lexStep s.1 c, match s.1 with
    | .code => if c = '!' then s.2 else if isSpace c then s.2 else decide (c = '&')
    | _ => s.2)

/-- One line. -/
def lineStep (s : LineState) (line : Line) : LineState := (line ++ ['\n']).foldl stateStep s

/-- The line at a position comes between the lines of a statement. -/
def InsideStatement (lines : List Line) (i : ℕ) : Prop :=
  (lines.take i).foldl lineStep (.code, false) ≠ (.code, false)

instance (lines : List Line) (i : ℕ) : Decidable (InsideStatement lines i) :=
  inferInstanceAs (Decidable (_ ≠ _))

/-- A source file: its name, its text and which of its lines are in an execution part. -/
structure SourceFile where
  name : Name
  text : Text
  inExecutionPart : ℕ → Bool

namespace SourceFile

/-- An executable statement may stand in place of this line. -/
def MayStand (F : SourceFile) (i : ℕ) : Prop :=
  F.inExecutionPart i = true ∧ ¬ InsideStatement (splitlines F.text) i

/-- A directive begins at this line: it has the sentinel, and no sentinel line that continues is
before it. -/
def BeginsDirective (F : SourceFile) (i : ℕ) : Prop :=
  ∃ line, (splitlines F.text)[i]? = some line ∧ isSentinel line ∧
    ∀ before, 0 < i → (splitlines F.text)[i - 1]? = some before →
      ¬ (isSentinel before ∧ endsInAmpersand before)

/-- The text ends in a line feed or in a line that is not empty. -/
def EndsInLine (F : SourceFile) : Prop :=
  F.text.getLast? = some '\n' ∨ (splitlines F.text).getLast? ≠ some []

end SourceFile

/-- The map that the sources make up. -/
def srcMap (files : List SourceFile) : List (Name × Text) := files.map fun F => (F.name, F.text)

/-- The markers of some pieces from a line on: the line of the directive and the number. -/
def placesFrom : ℕ → List Piece → List (ℕ × ℕ)
  | _, [] => []
  | i, .kept lines :: rest => placesFrom (i + lines.length) rest
  | i, .marker n block :: rest => (i, n) :: placesFrom (i + block.length) rest

/-- The markers of each file. -/
def filePlaces (files : List SourceFile) : List (SourceFile × List (ℕ × ℕ)) :=
  files.zip ((encodePieces 0 (srcMap files)).map fun s => placesFrom 0 s.2.2)

/-- The encoding is undone line for line. -/
def RoundTrips (files : List SourceFile) : Prop :=
  let e := encodeAccDirectives (srcMap files)
  e.sources.map (fun s => splitlines (decodeAccDirectives s.2 e.directives)) =
    files.map fun F => splitlines F.text

/-- No two markers have one number. -/
def DistinctMarkers (files : List SourceFile) : Prop :=
  ((filePlaces files).flatMap fun p => p.2.map Prod.snd).Nodup

/-- Every marker stands where an executable statement may. -/
def MarkersMayStand (files : List SourceFile) : Prop :=
  ∀ p ∈ filePlaces files, ∀ m ∈ p.2, p.1.MayStand m.1

end Preprocess.AccMarkers
