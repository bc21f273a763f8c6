/-
# The lines of a source text

The text scans of the module merge: the lines of a text, their code without comments and
character literals, the modules a text uses and the modules it defines.  Text is ASCII.
-/
import DaceFortran.Lib.CharClasses

namespace Preprocess

export CharClasses (isSpace isWord)

abbrev Line := List Char

abbrev Text := List Char

/-- A module's name, in lower case. -/
abbrev Name := List Char

/-- The equality of texts, under a name of its own. -/
scoped instance lawfulText : LawfulBEq (List Char) := List.instLawfulBEq

/-! ## Lines and their code -/

/-- The characters `str.splitlines` ends a line at. -/
def isBoundary (c : Char) : Bool := decide (c.toNat ∈ [10, 11, 12, 13, 28, 29, 30, 133])

/-- `splitlines` with the line read so far, reversed; `cr` after a carriage return. -/
def splitlinesFrom : Bool → Line → Text → List Line
  | _, acc, [] => if acc = [] then [] else [acc.reverse]
  | cr, acc, c :: r =>
    if isBoundary c then
      if cr && decide (c.toNat = 10) then splitlinesFrom false [] r
      else acc.reverse :: splitlinesFrom (decide (c.toNat = 13)) [] r
    else splitlinesFrom false (c :: acc) r

/-- `str.splitlines`. -/
def splitlines (text : Text) : List Line := splitlinesFrom false [] text

/-- `_code_of` inside (`some` of its quote) or outside a character literal.  A doubled quote leaves
the literal and enters it again: its characters are blanked either way. -/
def codeFrom : Option Char → Line → Line
  | _, [] => []
  | none, c :: r =>
    if c.toNat = 34 ∨ c.toNat = 39 then ' ' :: codeFrom (some c) r
    else if c = '!' then []
    else c :: codeFrom none r
  | some q, c :: r => ' ' :: codeFrom (if c = q then none else some q) r

/-- `_code_of`: the line up to its comment, character literals blanked. -/
def codeOf (line : Line) : Line := codeFrom none line

/-! ## Pieces of the patterns -/

def skipSpace (line : Line) : Line := line.dropWhile isSpace

/-- The rest after a keyword, whatever its case. -/
def keyword : List Char → Line → Option Line
  | [], r => some r
  | _ :: _, [] => none
  | k :: ks, c :: r => if c.toLower = k then keyword ks r else none

/-- `\b` after a word character. -/
def atWordEnd (line : Line) : Bool := !(line.head?.any isWord)

/-- `([A-Za-z]\w*)`, in lower case, and the rest. -/
def takeName (line : Line) : Option (Name × Line) :=
  if line.head?.any Char.isAlpha then
    some ((line.takeWhile isWord).map Char.toLower, line.dropWhile isWord)
  else none

/-- A keyword that ends a word. -/
def wholeKeyword (k : List Char) (line : Line) : Option Line :=
  match keyword k line with
  | some r => if atWordEnd r then some r else none
  | none => none

/-! ## `_USE_RE` and `_used_modules` -/

/-- `(?:,\s*intrinsic\s*)?` -/
def skipIntrinsic (line : Line) : Line :=
  match line with
  | ',' :: r => ((keyword "intrinsic".toList (skipSpace r)).map skipSpace).getD line
  | _ => line

/-- `(?:::)?` -/
def skipColons (line : Line) : Line :=
  match line with
  | ':' :: ':' :: r => r
  | _ => line

/-- The module named by a `USE` statement. -/
def useName (code : Line) : Option Name :=
  (wholeKeyword "use".toList (skipSpace code)).bind fun r =>
    (takeName (skipSpace (skipColons (skipIntrinsic (skipSpace r))))).map Prod.fst

def intrinsicModules : List Name :=
  ["iso_c_binding", "iso_fortran_env", "ieee_arithmetic", "ieee_exceptions", "ieee_features",
    "omp_lib", "omp_lib_kinds", "openacc", "mpi", "mpi_f08"].map String.toList

/-- `_used_modules` from the names `seen`. -/
def usedModulesFrom (resolve : List Name) : List Name → List Line → List Name
  | _, [] => []
  | seen, raw :: rest =>
    match useName (codeOf raw) with
    | none => usedModulesFrom resolve seen rest
    | some nm =>
      if (nm ∈ intrinsicModules ∧ nm ∉ resolve) ∨ nm ∈ seen then usedModulesFrom resolve seen rest
      else nm :: usedModulesFrom resolve (nm :: seen) rest

/-- `_used_modules`: the modules a text uses, in order, without repetition. -/
def usedModules (resolve : List Name) (text : Text) : List Name :=
  usedModulesFrom resolve [] (splitlines text)

/-! ## The names of `_module_blocks` -/

/-- `_MODULE_OPEN_RE`: the module a line opens. -/
def moduleOpen (code : Line) : Option Name :=
  (keyword "module".toList (skipSpace code)).bind fun r =>
    if r.head?.any isSpace then
      let s := skipSpace r
      if (wholeKeyword "procedure".toList s).isSome ||
        (wholeKeyword "subroutine".toList s).isSome ||
          (wholeKeyword "function".toList s).isSome then none
      else (takeName s).bind fun p => if skipSpace p.2 = [] then some p.1 else none
    else none

/-- `_MODULE_END_RE` -/
def moduleEnd (code : Line) : Bool :=
  ((keyword "end".toList (skipSpace code)).bind fun r =>
    wholeKeyword "module".toList (skipSpace r)).isSome

/-- The modules the lines define; `inside` a module up to its end. -/
def moduleNamesFrom : Bool → List Line → List Name
  | _, [] => []
  | true, raw :: rest => moduleNamesFrom (!moduleEnd (codeOf raw)) rest
  | false, raw :: rest =>
    match moduleOpen (codeOf raw) with
    | some nm => nm :: moduleNamesFrom true rest
    | none => moduleNamesFrom false rest

/-- The modules a text defines. -/
def moduleNames (text : Text) : List Name := moduleNamesFrom false (splitlines text)

end Preprocess
