/-
# Expressions with array references, and the 0-based expression that is meant

The integer expressions whose rendered text `fortran_subscripts_to_dace` is given, their
value in a store where every section is storage associated with its source, and the
0-based expression that is meant: every array reference lowered once, section aliases
followed to the storage, the offset of the descriptor subtracted per dimension.
-/
import DaceFortran.Lib.Decimal
import DaceFortran.Builder.SubscriptScan

open List

namespace Subscripts

/-! ## Expressions -/

/-- An identifier. -/
structure Name where
  text : Text
  start : text.head?.any isStart = true
  word : ∀ c ∈ text, isWord c = true

/-- The text of a binary operator. -/
structure Operator where
  text : Text
  nonempty : text ≠ []
  chars : ∀ c ∈ text, isOperator c = true

/-- Integer expressions of the bridge. -/
inductive Expr where
  | lit (n : ℕ)
  | var (x : Name)
  | ref (arr : Name) (subs : List Expr)
  | call (f : Name) (args : List Expr)
  | op (o : Operator) (l r : Expr)
  | neg (e : Expr)
  | paren (e : Expr)

mutual
/-- The text of an expression; the separator is the one between subscripts. -/
def render (sep : Text) : Expr → Text
  | .lit n => (toString n).toList
  | .var x => x.text
  | .ref arr subs => arr.text ++ '[' :: joinWith sep (renderEach sep subs) ++ [']']
  | .call f args => f.text ++ '(' :: joinWith [','] (renderEach sep args) ++ [')']
  | .op o l r => render sep l ++ o.text ++ render sep r
  | .neg e => '-' :: render sep e
  | .paren e => '(' :: render sep e ++ [')']

def renderEach (sep : Text) : List Expr → List Text
  | [] => []
  | e :: es => render sep e :: renderEach sep es
end

theorem renderEach_eq_map (sep : Text) (es : List Expr) :
    renderEach sep es = es.map (render sep) := by
  induction es with
  | nil => rfl
  | cons e es ih => rw [renderEach, ih, map_cons]

/-- The text of a Fortran expression. -/
abbrev text : Expr → Text := render [',']

mutual
/-- Every array reference names an array and a number of subscripts of that kind. -/
def Every (ok : Text → ℕ → Prop) : Expr → Prop
  | .lit _ => True
  | .var _ => True
  | .ref arr subs => ok arr.text subs.length ∧ EveryOf ok subs
  | .call _ args => EveryOf ok args
  | .op _ l r => Every ok l ∧ Every ok r
  | .neg e => Every ok e
  | .paren e => Every ok e

def EveryOf (ok : Text → ℕ → Prop) : List Expr → Prop
  | [] => True
  | e :: es => Every ok e ∧ EveryOf ok es
end

theorem everyOf_iff {ok : Text → ℕ → Prop} {es : List Expr} :
    EveryOf ok es ↔ ∀ e ∈ es, Every ok e := by
  induction es with
  | nil => simp [EveryOf]
  | cons e es ih => simp [EveryOf, ih]

/-! ## The arrays of a program -/

/-- A dimension of the source: one of the dummy, shifted by what the triplet starts
above the dummy's lower bound, or the index of a dropped dimension.  The bridge takes a
whole dimension of a descriptor for one whatever its lower bound is: in a base allocated
from `0` the dummy's `1` stands for the `0`. -/
inductive Section
  | dim (k : ℕ) (shift : ℤ)
  | index (e : Expr)

/-- An array of its own storage, or a dummy that is a section of another. -/
inductive Decl
  | plain
  | sectionOf (source : Name) (dims : List Section)

/-- The arrays of a program: every dummy stands above its source and above the arrays
its dropped indices read. -/
structure Program where
  decl : Text → Option Decl
  arity : Text → ℕ
  rank : Text → ℕ
  arity_pos : ∀ a, (decl a).isSome → 0 < arity a
  source_fits : ∀ a source dims, decl a = some (.sectionOf source dims) →
    (decl source.text).isSome ∧ rank source.text < rank a ∧ arity source.text = dims.length
  dim_fits : ∀ a source dims k shift, decl a = some (.sectionOf source dims) →
    .dim k shift ∈ dims → k < arity a
  index_fits : ∀ a source dims e, decl a = some (.sectionOf source dims) →
    .index e ∈ dims → Every (fun b n => (decl b).isSome ∧ arity b = n ∧ rank b < rank a) e

namespace Program

variable (p : Program)

/-- The references of the expression are to arrays of the program. -/
def Fits (e : Expr) : Prop := Every (fun b n => (p.decl b).isSome ∧ p.arity b = n) e

/-- Every triplet of a section starts at the dummy's own lower bound, the one case in
which `view_dim_map`, which has no place for a shift, says all of it. -/
def KeepsIndex : Prop :=
  ∀ a source dims k shift, p.decl a = some (.sectionOf source dims) →
    .dim k shift ∈ dims → shift = 0

/-- An entry of `view_dim_map`. -/
def slot : Section → Slot
  | .dim k _ => .dim k
  | .index e => .index (text e)

/-- The arrays the builder knows. -/
def arrays (a : Text) : Option Info :=
  (p.decl a).map fun
    | .plain => .plain
    | .sectionOf source dims => .sectionAlias source.text (dims.map slot)

end Program

/-! ## Values -/

/-- A store: scalars, functions and operators, the contents of every descriptor by
0-based index, and what a Fortran reference reads.  A dummy is storage associated with
its section; the offset symbols hold the lower bounds. -/
structure Store (p : Program) where
  scalar : Text → ℤ
  func : Text → List ℤ → ℤ
  oper : Text → ℤ → ℤ → ℤ
  lower : Text → ℕ → ℤ
  elem : Text → List ℤ → ℤ
  read : Text → List ℤ → ℤ
  minus_eq : ∀ x y, oper [' ', '-', ' '] x y = x - y
  offset_eq : ∀ a k, scalar (offsetToken a k) = lower a k

mutual
/-- The value of an expression whose references are read so. -/
def value {p : Program} (s : Store p) (read : Text → List ℤ → ℤ) : Expr → ℤ
  | .lit n => n
  | .var x => s.scalar x.text
  | .ref arr subs => read arr.text (valueEach s read subs)
  | .call f args => s.func f.text (valueEach s read args)
  | .op o l r => s.oper o.text (value s read l) (value s read r)
  | .neg e => -value s read e
  | .paren e => value s read e

def valueEach {p : Program} (s : Store p) (read : Text → List ℤ → ℤ) : List Expr → List ℤ
  | [] => []
  | e :: es => value s read e :: valueEach s read es
end

theorem valueEach_eq_map {p : Program} (s : Store p) (read : Text → List ℤ → ℤ)
    (es : List Expr) : valueEach s read es = es.map (value s read) := by
  induction es with
  | nil => rfl
  | cons e es ih => rw [valueEach, ih, map_cons]

namespace Store

variable {p : Program} (s : Store p)

/-- The index of the source that a reference to the dummy means. -/
def sourceIndex (dims : List Section) (idx : List ℤ) : List ℤ :=
  dims.map fun
    | .dim k shift => idx.getD k 0 + shift
    | .index e => value s s.read e

/-- The 0-based index of an element of an array with its lower bounds. -/
def zeroBased (a : Text) (idx : List ℤ) : List ℤ := idx.mapIdx fun k i => i - s.lower a k

/-- What Fortran references read. -/
structure Associated : Prop where
  read_plain : ∀ a idx, p.decl a = some .plain → s.read a idx = s.elem a (s.zeroBased a idx)
  read_section : ∀ a source dims idx, p.decl a = some (.sectionOf source dims) →
    s.read a idx = s.read source.text (s.sourceIndex dims idx)

end Store

/-! ## The expression that is meant -/

/-- The text of a number is made of word characters. -/
theorem isWord_of_mem_toString {n : ℕ} {c : Char} (h : c ∈ (toString n).toList) :
    isWord c = true := by
  have hd : c.isDigit = true := Decimal.isDigit_of_mem_toString h
  simp [isWord, Char.isAlphanum, hd]

theorem isWord_of_mem_offsetToken {a : Text} (ha : ∀ c ∈ a, isWord c = true) (k : ℕ) :
    ∀ c ∈ offsetToken a k, isWord c = true := by
  intro c hc
  have hoff : ∀ x ∈ ['o', 'f', 'f', 's', 'e', 't', '_'], isWord x = true :=
    all_eq_true.1 (by decide)
  have hdim : ∀ x ∈ ['_', 'd'], isWord x = true := all_eq_true.1 (by decide)
  rw [offsetToken, mem_append, mem_append, mem_append] at hc
  rcases hc with ((hc | hc) | hc) | hc
  · exact hoff c hc
  · exact ha c hc
  · exact hdim c hc
  · exact isWord_of_mem_toString hc

theorem offsetToken_start (a : Text) (k : ℕ) :
    (offsetToken a k).head?.any isStart = true := by
  rw [offsetToken, cons_append, cons_append, cons_append, List.head?_cons]
  decide

/-- `offset_<arr>_d<dim>` -/
def offsetName (arr : Name) (k : ℕ) : Name :=
  ⟨offsetToken arr.text k, offsetToken_start arr.text k, isWord_of_mem_offsetToken arr.word k⟩

def minus : Operator := ⟨[' ', '-', ' '], by decide, List.all_eq_true.1 (by decide)⟩

namespace Program

variable (p : Program)

def spliceTree (dims : List Section) (subs : List Expr) : List Expr :=
  dims.map fun
    | .dim k _ => subs.getD k (.lit 0)
    | .index e => e

/-- The storage behind a reference, with its subscripts. -/
def resolve : ℕ → Name → List Expr → Name × List Expr
  | 0, arr, subs => (arr, subs)
  | n + 1, arr, subs =>
      match p.decl arr.text with
      | some (.sectionOf source dims) => resolve n source (spliceTree dims subs)
      | _ => (arr, subs)

/-- The subscripts of the descriptor. -/
def offsets (arr : Name) (subs : List Expr) : List Expr :=
  subs.mapIdx fun k e => .op minus (.paren e) (.var (offsetName arr k))

mutual
/-- Every outermost reference lowered, given how their subscripts are. -/
def lowerRefs (sub : Expr → Expr) : Expr → Expr
  | .lit n => .lit n
  | .var x => .var x
  | .ref arr subs =>
      let resolved := p.resolve (p.rank arr.text) arr subs
      .ref resolved.1 (offsets resolved.1 (resolved.2.map sub))
  | .call f args => .call f (lowerRefsOf sub args)
  | .op o l r => .op o (lowerRefs sub l) (lowerRefs sub r)
  | .neg e => .neg (lowerRefs sub e)
  | .paren e => .paren (lowerRefs sub e)

def lowerRefsOf (sub : Expr → Expr) : List Expr → List Expr
  | [] => []
  | e :: es => lowerRefs sub e :: lowerRefsOf sub es
end

/-- Every reference of the expression lowered once, to that nesting depth. -/
def lower : ℕ → Expr → Expr
  | 0, e => e
  | n + 1, e => p.lowerRefs (lower n) e

theorem lowerRefsOf_eq_map (sub : Expr → Expr) (es : List Expr) :
    p.lowerRefsOf sub es = es.map (p.lowerRefs sub) := by
  induction es with
  | nil => rfl
  | cons e es ih => rw [lowerRefsOf, ih, map_cons]

end Program
/-! ## Its text -/

/-- What the scan needs of the text of an expression. -/
structure Shape (t : Text) : Prop where
  balanced : Balanced t
  unsplit : Unsplit 0 t
  tight : Tight t

theorem shape_word {t : Text} (hne : t ≠ []) (h : ∀ c ∈ t, isWord c = true) : Shape t where
  balanced := balanced_of_forall fun c hc =>
    ⟨isOpen_eq_false_of_isWord (h c hc), isClose_eq_false_of_isWord (h c hc)⟩
  unsplit := unsplit_of_forall fun c hc =>
    ⟨isOpen_eq_false_of_isWord (h c hc), isClose_eq_false_of_isWord (h c hc),
      ne_comma_of_isWord (h c hc)⟩
  tight := tight_word hne h

theorem Name.ne_nil (x : Name) : x.text ≠ [] := by
  intro h
  have := x.start
  simp [h] at this

theorem shape_name (x : Name) : Shape x.text := shape_word x.ne_nil x.word

theorem Operator.classes (o : Operator) {c : Char} (hc : c ∈ o.text) :
    isWord c = false ∧ isOpen c = false ∧ isClose c = false ∧ c ≠ ',' := by
  have := o.chars c hc
  simp only [isOperator, Bool.and_eq_true, Bool.not_eq_true', decide_eq_true_eq] at this
  tauto

/-- A name or nothing, and a joined list in brackets behind it. -/
theorem shape_joined {w : Text} {ts : List Text} {o c : Char} (ho : isOpen o = true)
    (hc : isClose c = true) (hco : isOpen c = false) (hob : isSpace o = false)
    (hcb : isSpace c = false) (hw : w = [] ∨ Shape w) (hts : ∀ t ∈ ts, Shape t) :
    Shape (w ++ o :: joinWith [','] ts ++ [c]) := by
  have hbal : Balanced (joinWith [','] ts) :=
    forall_joinWith balanced_nil (balanced_char (by decide) (by decide))
      (fun _ _ => balanced_append) fun t ht => (hts t ht).balanced
  have huns : Unsplit 1 (joinWith [','] ts) :=
    forall_joinWith (unsplit_nil 1) (unsplit_char (by decide) (by decide) (Or.inr (by omega)))
      (fun _ _ => unsplit_append) fun t ht => (hts t ht).unsplit.mono (by omega)
  have htight : Tight (o :: joinWith [','] ts ++ [c]) := by
    have := tight_append (u := joinWith [','] ts) (tight_char hob) (tight_char hcb)
    simpa using this
  rw [append_assoc]
  rcases hw with rfl | hw
  · exact ⟨balanced_wrap ho hc hco hbal, unsplit_wrap ho hc hco huns, htight⟩
  · refine ⟨balanced_append hw.balanced (balanced_wrap ho hc hco hbal),
      unsplit_append hw.unsplit (unsplit_wrap ho hc hco huns), ?_⟩
    simpa using tight_append (u := []) hw.tight htight

mutual
theorem shape_text : ∀ e : Expr, Shape (text e)
  | .lit n => by
      rw [text, render]
      exact shape_word (Decimal.toString_ne_nil n) fun c hc => isWord_of_mem_toString hc
  | .var x => by
      rw [text, render]
      exact shape_name x
  | .ref arr subs => by
      rw [text, render]
      exact shape_joined (by decide) (by decide) (by decide) (by decide) (by decide)
        (Or.inr (shape_name arr)) (shape_each subs)
  | .call f args => by
      rw [text, render]
      exact shape_joined (by decide) (by decide) (by decide) (by decide) (by decide)
        (Or.inr (shape_name f)) (shape_each args)
  | .op o l r => by
      have hl := shape_text l
      have hr := shape_text r
      rw [text, render]
      refine ⟨balanced_append (balanced_append hl.balanced ?_) hr.balanced,
        unsplit_append (unsplit_append hl.unsplit ?_) hr.unsplit, tight_append hl.tight hr.tight⟩
      · exact balanced_of_forall fun c hc => ⟨(o.classes hc).2.1, (o.classes hc).2.2.1⟩
      · exact unsplit_of_forall fun c hc => (o.classes hc).2
  | .neg e => by
      have he := shape_text e
      rw [text, render]
      refine ⟨balanced_append (t := ['-']) (balanced_char (by decide) (by decide)) he.balanced,
        unsplit_append (t := ['-']) (unsplit_char (by decide) (by decide) (Or.inl (by decide)))
          he.unsplit, ?_⟩
      simpa using tight_append (t := ['-']) (u := []) (tight_char (by decide)) he.tight
  | .paren e => by
      have he := shape_text e
      rw [text, render]
      have := @shape_joined [] [text e] '(' ')' (by decide)
        (by decide) (by decide) (by decide) (by decide) (Or.inl rfl) (by simpa using he)
      simpa [joinWith] using this

theorem shape_each : ∀ es : List Expr, ∀ t ∈ renderEach [','] es, Shape t
  | [] => by simp [renderEach]
  | e :: es => by
      have he := shape_text e
      have hes := shape_each es
      rw [renderEach]
      exact forall_mem_cons.2 ⟨he, hes⟩
end

end Subscripts
