/-
# Fortran subscripts in a text

`fortran_subscripts_to_dace` rewrites the array reads of a rendered expression: it
scans the text for a name followed by a bracket, walks the brackets balanced, splits
the subscripts at top-level commas, splices section aliases onto their source and
subtracts the offsets of the source's descriptor, the subscripts lowered in turn.
-/
import DaceFortran.Lib.CharClasses
import Mathlib.Data.Int.Notation

namespace Subscripts

export CharClasses (isSpace isWord)

abbrev Text := List Char

/-- `[A-Za-z_]` -/
def isStart (c : Char) : Bool := c.isAlpha || decide (c = '_')

def isOpen (c : Char) : Bool := decide (c = '(' ∨ c = '[' ∨ c = '{')

def isClose (c : Char) : Bool := decide (c = ')' ∨ c = ']' ∨ c = '}')

/-- `str.strip` -/
def strip (t : Text) : Text := ((t.dropWhile isSpace).reverse.dropWhile isSpace).reverse

/-! ## `find_array_subscripts` -/

/-- The text up to the bracket that closes the one open at the depth, and what is
behind it; none where it is not closed. -/
def takeInner : ℕ → Text → Option (Text × Text)
  | _, [] => none
  | d, c :: cs =>
      if isOpen c then (takeInner (d + 1) cs).map fun p => (c :: p.1, p.2)
      else if isClose c then
        if d = 1 then some ([], cs) else (takeInner (d - 1) cs).map fun p => (c :: p.1, p.2)
      else (takeInner d cs).map fun p => (c :: p.1, p.2)

/-- A character in front of the first part. -/
def consHead (c : Char) : List Text → List Text
  | [] => [[c]]
  | t :: ts => (c :: t) :: ts

/-- The parts between top-level commas. -/
def splitTop : ℕ → Text → List Text
  | _, [] => [[]]
  | d, c :: cs =>
      if isOpen c then consHead c (splitTop (d + 1) cs)
      else if isClose c then consHead c (splitTop (d - 1) cs)
      else if c = ',' ∧ d = 0 then [] :: splitTop d cs
      else consHead c (splitTop d cs)

/-- What stands at a position: no read of a known array, one that is not closed, or one
with its width, its array and its subscripts. -/
inductive Head
  | none
  | unbalanced
  | found (width : ℕ) (arr : Text) (parts : List Text)

/-- `re.match(r"([A-Za-z_]\w*)\[", expr[i:])` and the walk behind it. -/
def subscriptAt (known : Text → Bool) (t : Text) : Head :=
  let arr := t.takeWhile isWord
  match t.dropWhile isWord with
  | '[' :: inner =>
      if arr.head?.any isStart && known arr then
        match takeInner 1 inner with
        | some (body, rest) => .found (t.length - rest.length) arr ((splitTop 0 body).map strip)
        | none => .unbalanced
      else .none
  | _ => .none

/-- The text with every read `find_array_subscripts` yields replaced; the first argument
counts the characters of a read that are left. -/
def scan (known : Text → Bool) (out : Text → List Text → Text) : ℕ → Text → Text
  | _, [] => []
  | skip + 1, _ :: cs => scan known out skip cs
  | 0, c :: cs =>
      match subscriptAt known (c :: cs) with
      | .none => c :: scan known out 0 cs
      | .unbalanced => c :: cs
      | .found width arr parts => out arr parts ++ scan known out (width - 1) cs

/-! ## `resolve_section_alias` -/

/-- An entry of `view_dim_map`: a dimension of the dummy, or the index of a dropped one. -/
inductive Slot
  | dim (k : ℕ)
  | index (expr : Text)

/-- An array: one of its own, or a section alias. -/
inductive Info
  | plain
  | sectionAlias (source : Text) (dimMap : List Slot)

/-- The subscripts of the source. -/
def splice (dimMap : List Slot) (exprs : List Text) : List Text :=
  dimMap.map fun
    | .dim k => exprs.getD k []
    | .index expr => expr

/-- `resolve_section_alias`, following at most so many aliases. -/
def resolveSectionAlias (arrays : Text → Option Info) : ℕ → Text → List Text → Text × List Text
  | 0, arr, exprs => (arr, exprs)
  | n + 1, arr, exprs =>
      match arrays arr with
      | some (.sectionAlias source dimMap) =>
          if source ≠ arr then resolveSectionAlias arrays n source (splice dimMap exprs)
          else (source, splice dimMap exprs)
      | _ => (arr, exprs)

/-! ## `fortran_subscripts_to_dace` -/

/-- `offset_<arr>_d<dim>` -/
def offsetToken (arr : Text) (dim : ℕ) : Text :=
  ['o', 'f', 'f', 's', 'e', 't', '_'] ++ arr ++ ['_', 'd'] ++ (toString dim).toList

/-- `sep.join` -/
def joinWith (sep : Text) : List Text → Text
  | [] => []
  | [t] => t
  | t :: u :: ts => t ++ sep ++ joinWith sep (u :: ts)

/-- `_format_offset_subset` -/
def formatOffsetSubset (arr : Text) (parts : List Text) : Text :=
  arr ++ '[' :: joinWith [',', ' ']
    (parts.mapIdx fun d p => '(' :: p ++ [')', ' ', '-', ' '] ++ offsetToken arr d) ++ [']']

/-- `fortran_subscripts_to_dace`, with fuel for the recursion into subscripts.  A text
without a bracket is returned as it is by the scan, too. -/
def fortranSubscriptsToDace (arrays : Text → Option Info) (depth : Text → ℕ) : ℕ → Text → Text
  | 0, expr => expr
  | n + 1, expr =>
      scan (fun arr => (arrays arr).isSome)
        (fun arr parts =>
          let resolved := resolveSectionAlias arrays (depth arr) arr parts
          formatOffsetSubset resolved.1
            (resolved.2.map (fortranSubscriptsToDace arrays depth n)))
        0 expr

-- the equations of the scans, made once for the proofs over them
attribute [local simp] splitTop takeInner scan subscriptAt

end Subscripts
