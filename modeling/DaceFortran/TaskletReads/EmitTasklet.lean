/-
# `emit_tasklet`'s reads

The connectors are declared and wired from the list of the accesses, which leaves out the loads of
subscripts; the code gets its numbers from the text.  They agree where no load of a subscript is
found in the text before its array is read as a value.
-/
import DaceFortran.TaskletReads.RewriteOrder
import Mathlib.Data.List.Infix
import Mathlib.Data.List.Dedup

open List

namespace TaskletReads

/-! ## The function -/

structure Access where
  arrayName : Name
  isRead : Bool
  indexExprs : List (List Char)
deriving DecidableEq

def Tok.chars : Tok → List Char
  | .name s => s
  | .lsq => ['[']
  | .rsq => [']']
  | .lpar => ['(']
  | .rpar => [')']
  | .text s => s

def chars (e : List Tok) : List Char := e.flatMap Tok.chars

/-- `_outside_brackets` -/
def outsideBrackets : ℤ → List Tok → List Tok
  | _, [] => []
  | d, .lsq :: r => outsideBrackets (d + 1) r
  | d, .rsq :: r => outsideBrackets (d - 1) r
  | d, t :: r => if d = 0 then t :: outsideBrackets d r else outsideBrackets d r

/-- `_ident_tokens` -/
def identTokens (e : List Tok) : List Name := e.filterMap fun t => match t with
  | .name s => some s
  | _ => none

/-- What an edge into the tasklet carries: the memlet of an access, or a scalar. -/
inductive Source
  | access (a : Access)
  | scalar (nm : Name)
deriving DecidableEq

structure Tasklet where
  inConnectors : List Name
  code : List Tok
  edges : List (Name × Source)

section Emit

variable (arrays scalars indirectArrays : List Name) (expr : List Tok)

/-- The arrays read as values, as a set: an index array only where it stands outside the
brackets. -/
def rArr : List Name := (identTokens expr).dedup.filter fun nm =>
  nm ∈ arrays ∧ (nm ∈ indirectArrays → nm ∈ identTokens (outsideBrackets 0 expr))

def rScl : List Name := (identTokens expr).dedup.filter fun nm => nm ∈ scalars ∧ nm ∉ arrays

/-- An access that is an index load of the one behind it. -/
def indexLoad (a : Access) : List Access → Bool
  | [] => false
  | b :: _ => a.isRead && decide (a.arrayName ∈ indirectArrays) &&
      b.indexExprs.any fun e => decide ((a.arrayName ++ ['[']) <:+: e)

/-- The accesses that have connectors of their own, in their order. -/
def valueReads : List Access → List Access
  | [] => []
  | a :: r => (if a.isRead = true ∧ a.arrayName ∈ rArr arrays indirectArrays expr ∧
      indexLoad indirectArrays a r = false then [a] else []) ++ valueReads r

def readsByName (accesses : List Access) (nm : Name) : List Access :=
  (valueReads arrays indirectArrays expr accesses).filter fun a => a.arrayName = nm

def arrayEdges (accesses : List Access) : List (Name × Source) :=
  (rArr arrays indirectArrays expr).flatMap fun nm =>
    (readsByName arrays indirectArrays expr accesses nm).zipIdx.map fun q =>
      (occName nm q.2, .access q.1)

def scalarEdges : List (Name × Source) :=
  (rScl arrays scalars expr).map fun sc => (inName sc, .scalar sc)

def emitTasklet (accesses : List Access) (sortedTokens : List Name) : Tasklet where
  inConnectors := (scalarEdges arrays scalars expr).map Prod.fst ++
    (arrayEdges arrays indirectArrays expr accesses).map Prod.fst
  code := rewriteReadConnectors expr sortedTokens (rScl arrays scalars expr)
  edges := arrayEdges arrays indirectArrays expr accesses ++ scalarEdges arrays scalars expr

end Emit

/-! ## Expressions and their accesses -/

def readsOf (items : List Item) : List Read := items.filterMap fun it => match it with
  | .read r => some r
  | _ => none

/-- The text of the subscript. -/
def Read.subscript : Read → List (List Char)
  | .bare _ => []
  | .flat _ sub => [chars sub]
  | .via _ pre inner post => [chars (pre ++ inner.text ++ post)]

/-- The access of the read itself. -/
def Read.access (isRead : Bool) (r : Read) : Access := ⟨r.name, isRead, r.subscript⟩

/-- Each load of a subscript directly before the access it indexes. -/
def Read.accesses (isRead : Bool) : Read → List Access
  | .via nm pre inner post =>
    inner.accesses true ++ [(Read.via nm pre inner post).access isRead]
  | r => [r.access isRead]

/-- A load of a subscript has a subscript of its own, and other words hold no bracket. -/
def Read.Indexed : Read → Prop
  | .bare _ => True
  | .flat _ sub => ∀ t ∈ sub, '[' ∉ t.chars
  | .via _ pre inner post => (∀ t ∈ pre ++ post, '[' ∉ t.chars) ∧
      inner.subscript ≠ [] ∧ inner.Indexed

/-- An assignment: the parts of its right-hand side, and the accesses in their order, each with its
index loads, of which those of the right-hand side are reads. -/
structure Assign (arrays scalars indirectArrays : List Name) (items : List Item)
    (accessed : List (Bool × Read)) : Prop where
  words : ∀ t, .word t ∈ items → t ≠ .lsq ∧ t ≠ .rsq ∧ ∀ nm ∈ arrays, t ≠ .name nm
  balanced : ∀ r, .read r ∈ items → r.Balanced
  isArray : ∀ r, .read r ∈ items → ∀ nm ∈ r.names, nm ∈ arrays
  subWords : ∀ r, .read r ∈ items → .rsq ∉ r.words ∧ ∀ nm ∈ arrays, .name nm ∉ r.words
  fresh : ∀ nm ∈ identTokens (textOf items), ¬ ['_', 'i', 'n', '_'] <+: nm
  reads : (accessed.filter fun q => q.1).map Prod.snd = readsOf items
  indexed : ∀ q ∈ accessed, q.2.Indexed
  indirect : ∀ q ∈ accessed, ∀ nm ∈ q.2.names.tail, nm ∈ indirectArrays

/-- The names of the reads, the longest first. -/
structure SortedTokens (names order : List Name) : Prop where
  nodup : order.Nodup
  mem : ∀ nm, nm ∈ order ↔ nm ∈ names
  longest : order.Pairwise fun x y => y.length ≤ x.length

/-- The connector has one edge, and it carries this. -/
def Wired (edges : List (Name × Source)) (c : Name) (s : Source) : Prop :=
  (c, s) ∈ edges ∧ ∀ s', (c, s') ∈ edges → s' = s

/-- The words of an expression with the connectors of its reads. -/
def rebuilt (scl : List Name) : List Item → List Name → List Tok
  | [], _ => []
  | .word t :: I, cs => settle scl scl t :: rebuilt scl I cs
  | .read _ :: I, c :: cs => .name c :: rebuilt scl I cs
  | .read r :: I, [] => r.text ++ rebuilt scl I []

/-- A word of the code, with the value of a connector. -/
def wordValue {V : Type} (inConnectors : List Name) (conn : Name → V) : Tok → Tok ⊕ V
  | .name c => if c ∈ inConnectors then .inr (conn c) else .inl (.name c)
  | t => .inl t

/-- A part of the expression, with the value of a scalar or of a read. -/
def partValue {V : Type} (scl : List Name) (val : Source → V) : Item → Tok ⊕ V
  | .word (.name s) => if s ∈ scl then .inr (val (.scalar s)) else .inl (.name s)
  | .word t => .inl t
  | .read r => .inr (val (.access (r.access true)))

/-- The code is the expression with a connector for each scalar and each read, each connector
carries what it stands for, all declared connectors occur, no name of a read is left, and over any
values the code is the expression. -/
structure ComputesReads (t : Tasklet) (names scl : List Name) (items : List Item) : Prop where
  code : ∃ cs, List.Forall₂ (fun c (r : Read) => Wired t.edges c (.access (r.access true))) cs
    (readsOf items) ∧ t.code = rebuilt scl items cs
  scalar : ∀ sc ∈ scl, .word (.name sc) ∈ items → Wired t.edges (inName sc) (.scalar sc)
  declared : ∀ c ∈ t.inConnectors, .name c ∈ t.code
  bare : ∀ nm ∈ names, .name nm ∉ t.code
  value : ∀ (V : Type) (conn : Name → V) (val : Source → V),
    (∀ c s, (c, s) ∈ t.edges → conn c = val s) →
    t.code.map (wordValue t.inConnectors conn) = items.map (partValue scl val)

/-- The condition on an expression and the order of its names. -/
structure Separate (rArr rScl order : List Name) (items : List Item) : Prop where
  /-- no array in its own subscript, unless an array around it comes before it -/
  nested : ∀ nm ∈ rArr, ∀ r ∈ readsOf items, (above order nm r.names).count nm ≤ 1
  /-- no load before a read of its array as a value, unless an array around it comes before it -/
  hidden : (readsOf items).Pairwise fun r r' => r'.name ∈ above order r'.name r.names →
    r.name = r'.name
  /-- no scalar in subscripts alone -/
  outside : ∀ sc ∈ rScl, .word (.name sc) ∈ items
  /-- no scalar named as an occurrence -/
  apart : ∀ sc ∈ rScl, ∀ nm ∈ rArr, ∀ i < ((readsOf items).filter fun r => r.name = nm).length,
    inName sc ≠ occName nm i

/-! ## Names -/

theorem occName_inj {x y : Name} {n m : ℕ} (h : occName x n = occName y m) : x = y ∧ n = m := by
  have hdigit {n : ℕ} {t s : List Char} (h : Nat.toDigits 10 n = t ++ '_' :: s) : False := by
    have hmem : '_' ∈ Nat.toDigits 10 n := by rw [h]; simp
    exact absurd (Nat.isDigit_of_mem_toDigits (by decide) (by decide) hmem) (by decide)
  have hdigits {n m : ℕ} (h : Nat.toDigits 10 n = Nat.toDigits 10 m) : n = m := by
    have hn := @Nat.ofDigitChars_toDigits 10 n (by decide) (by decide)
    rw [h, Nat.ofDigitChars_toDigits (by decide) (by decide)] at hn
    exact hn.symm
  unfold occName inName at h
  rw [append_assoc, append_assoc] at h
  rcases append_eq_append_iff.1 (append_cancel_left h) with ⟨t, ht, hrest⟩ | ⟨t, ht, hrest⟩
  · rcases t with - | ⟨c, t⟩
    · rw [append_nil] at ht
      exact ⟨ht.symm, hdigits (List.cons.inj hrest).2⟩
    · exact (hdigit (List.cons.inj hrest).2).elim
  · rcases t with - | ⟨c, t⟩
    · rw [append_nil] at ht
      exact ⟨ht, hdigits (List.cons.inj hrest).2.symm⟩
    · exact (hdigit (List.cons.inj hrest).2).elim

theorem inName_inj {x y : Name} (h : inName x = inName y) : x = y := append_cancel_left h

theorem mem_readsOf {items : List Item} {r : Read} : r ∈ readsOf items ↔ .read r ∈ items := by
  unfold readsOf
  rw [mem_filterMap]
  constructor
  · rintro ⟨it, hit, h⟩
    cases it with
    | word t => cases h
    | read r' =>
      cases h
      exact hit
  · exact fun h => ⟨_, h, rfl⟩

theorem mem_identTokens {e : List Tok} {nm : Name} : nm ∈ identTokens e ↔ .name nm ∈ e := by
  unfold identTokens
  rw [mem_filterMap]
  constructor
  · rintro ⟨t, ht, h⟩
    cases t with
    | name s =>
      cases h
      exact ht
    | _ => cases h
  · exact fun h => ⟨_, h, rfl⟩

theorem mem_textOf {items : List Item} {t : Tok} :
    t ∈ textOf items ↔ .word t ∈ items ∨ ∃ r, .read r ∈ items ∧ t ∈ r.text := by
  unfold textOf
  rw [mem_flatMap]
  constructor
  · rintro ⟨it, hit, ht⟩
    cases it with
    | word t' =>
      rw [mem_singleton.1 ht]
      exact .inl hit
    | read r => exact .inr ⟨r, hit, ht⟩
  · rintro (h | ⟨r, hr, ht⟩)
    · exact ⟨_, h, mem_singleton.2 rfl⟩
    · exact ⟨_, hr, ht⟩

theorem outsideBrackets_words {d : ℤ} (hd : d ≠ 0) {e : List Tok} (he : .lsq ∉ e ∧ .rsq ∉ e)
    (r : List Tok) : outsideBrackets d (e ++ r) = outsideBrackets d r := by
  induction e with
  | nil => rfl
  | cons t e ih =>
    have hrest := ih ⟨fun h => he.1 (mem_cons_of_mem t h), fun h => he.2 (mem_cons_of_mem t h)⟩
    cases t with
    | lsq => exact absurd mem_cons_self he.1
    | rsq => exact absurd mem_cons_self he.2
    | _ => simpa [outsideBrackets, hd] using hrest

/-- Outside the brackets a read shows its outermost array. -/
theorem outsideBrackets_read (r : Read) (hbal : r.Balanced) (hrsq : .rsq ∉ r.words)
    (d : ℤ) (hd : 0 ≤ d)
    (rest : List Tok) : outsideBrackets d (r.text ++ rest) =
      (if d = 0 then [.name r.name] else []) ++ outsideBrackets d rest := by
  induction r generalizing d rest with
  | bare nm => simp only [Read.text, Read.name, cons_append, nil_append, outsideBrackets]; split_ifs
      <;> rfl
  | flat nm sub =>
    have hsub := outsideBrackets_words (d := d + 1) (by omega) ⟨hbal.2, hrsq⟩ (.rsq :: rest)
    simp only [Read.text, Read.name, cons_append, append_assoc, nil_append,
      outsideBrackets, hsub, add_sub_cancel_right]
    split_ifs <;> rfl
  | via nm pre inner post ih =>
    have hlsq := hbal.2.1
    simp only [Read.words, mem_append, not_or] at hlsq hrsq
    have hpost := outsideBrackets_words (d := d + 1) (by omega) ⟨hlsq.2, hrsq.2⟩ (.rsq :: rest)
    have hinner := ih hbal.2.2 hrsq.1.2 (d + 1) (by omega) (post ++ .rsq :: rest)
    have hpre := outsideBrackets_words (d := d + 1) (by omega) ⟨hlsq.1, hrsq.1.1⟩
      (inner.text ++ (post ++ .rsq :: rest))
    rw [if_neg (by omega), nil_append] at hinner
    simp only [Read.text, Read.name, cons_append, append_assoc, nil_append,
      outsideBrackets, hpre, hinner, hpost, add_sub_cancel_right]
    split_ifs <;> rfl

theorem outsideBrackets_items {items : List Item}
    (hwords : ∀ t, .word t ∈ items → t ≠ .lsq ∧ t ≠ .rsq)
    (hbal : ∀ r, .read r ∈ items → r.Balanced) (hrsq : ∀ r, .read r ∈ items → .rsq ∉ r.words) :
    outsideBrackets 0 (textOf items) = items.map fun it => match it with
      | .word t => t
      | .read r => .name r.name := by
  induction items with
  | nil => rfl
  | cons it items ih =>
    have hrest := ih (fun t ht => hwords t (mem_cons_of_mem _ ht))
      (fun r hr => hbal r (mem_cons_of_mem _ hr)) fun r hr => hrsq r (mem_cons_of_mem _ hr)
    rw [textOf_cons, map_cons]
    cases it with
    | read r =>
      rw [Item.text, outsideBrackets_read r (hbal r mem_cons_self) (hrsq r mem_cons_self) 0 le_rfl,
        if_pos rfl, hrest]
      rfl
    | word t =>
      obtain ⟨hlsq, hrsq⟩ := hwords t mem_cons_self
      rw [← hrest]
      cases t with
      | lsq => exact absurd rfl hlsq
      | rsq => exact absurd rfl hrsq
      | _ => rfl

section Assigned

variable {arrays scalars indirectArrays : List Name} {items : List Item}
    {accessed : List (Bool × Read)}

theorem Assign.mem_accessed (h : Assign arrays scalars indirectArrays items accessed) {r : Read} :
    (true, r) ∈ accessed ↔ .read r ∈ items := by
  rw [← mem_readsOf, ← h.reads, mem_map]
  constructor
  · exact fun hr => ⟨(true, r), mem_filter.2 ⟨hr, rfl⟩, rfl⟩
  · rintro ⟨⟨b, r'⟩, hmem, rfl⟩
    obtain ⟨hmem, hb⟩ := mem_filter.1 hmem
    have hb : b = true := hb
    rwa [hb] at hmem

/-- The arrays with connectors are those of the reads outside the brackets. -/
theorem Assign.mem_rArr (h : Assign arrays scalars indirectArrays items accessed) {nm : Name} :
    nm ∈ rArr arrays indirectArrays (textOf items) ↔ ∃ r ∈ readsOf items, r.name = nm := by
  have houtside := outsideBrackets_items
    (fun t ht => ⟨(h.words t ht).1, (h.words t ht).2.1⟩) h.balanced
    fun r hr => (h.subWords r hr).1
  have hvalue (harray : nm ∈ arrays) : nm ∈ identTokens (outsideBrackets 0 (textOf items)) ↔
      ∃ r ∈ readsOf items, r.name = nm := by
    rw [mem_identTokens, houtside, mem_map]
    constructor
    · rintro ⟨it, hit, hname⟩
      cases it with
      | word t => exact absurd hname ((h.words t hit).2.2 nm harray)
      | read r => exact ⟨r, mem_readsOf.2 hit, by simpa using hname⟩
    · rintro ⟨r, hr, rfl⟩
      exact ⟨_, mem_readsOf.1 hr, rfl⟩
  unfold rArr
  rw [mem_filter, mem_dedup, mem_identTokens, decide_eq_true_eq]
  constructor
  · rintro ⟨hmem, harray, hindirect⟩
    rcases mem_textOf.1 hmem with hword | ⟨r, hr, hmem⟩
    · exact absurd rfl ((h.words _ hword).2.2 nm harray)
    · rcases name_mem_text.1 hmem with hin | hin
      · obtain ⟨L, hL⟩ := name_eq_head r
        rw [hL] at hin
        rcases mem_cons.1 hin with rfl | hin
        · exact ⟨r, mem_readsOf.2 hr, rfl⟩
        · refine (hvalue harray).1 (hindirect (h.indirect _ (h.mem_accessed.2 hr) nm ?_))
          rw [hL]
          exact hin
      · exact absurd hin ((h.subWords r hr).2 nm harray)
  · rintro ⟨r, hr, rfl⟩
    have hitem := mem_readsOf.1 hr
    obtain ⟨L, hL⟩ := name_eq_head r
    have hin : r.name ∈ r.names := by rw [hL]; exact mem_cons_self
    have harray := h.isArray r hitem r.name hin
    exact ⟨mem_textOf.2 (.inr ⟨r, hitem, name_mem_text.2 (.inl hin)⟩), harray,
      fun _ => (hvalue harray).2 ⟨r, hr, rfl⟩⟩

theorem mem_rScl {expr : List Tok} {sc : Name} :
    sc ∈ rScl arrays scalars expr ↔ .name sc ∈ expr ∧ sc ∈ scalars ∧ sc ∉ arrays := by
  unfold rScl
  rw [mem_filter, mem_dedup, mem_identTokens, decide_eq_true_eq]

/-! ## The accesses with connectors -/

theorem noBracket_words {e : List Tok} (he : ∀ t ∈ e, '[' ∉ t.chars) : '[' ∉ chars e := by
  unfold chars
  rw [mem_flatMap]
  rintro ⟨t, ht, hmem⟩
  exact he t ht hmem

theorem chars_append (e e' : List Tok) : chars (e ++ e') = chars e ++ chars e' := flatMap_append

/-- The text of a subscript names the load in it, with the bracket. -/
theorem infix_via {pre post : List Tok} {inner : Read} (h : inner.subscript ≠ []) :
    inner.name ++ ['['] <:+: chars (pre ++ inner.text ++ post) := by
  have hinner : ∃ rest, chars inner.text = (inner.name ++ ['[']) ++ rest := by
    cases inner with
    | bare nm => exact absurd rfl h
    | flat nm sub => exact ⟨chars (sub ++ [.rsq]), by simp [chars, Read.text, Read.name, Tok.chars]⟩
    | via nm pre' inner post' =>
      exact ⟨chars (pre' ++ inner.text ++ post' ++ [.rsq]), by
        simp [chars, Read.text, Read.name, Tok.chars]⟩
  obtain ⟨rest, hrest⟩ := hinner
  refine ⟨chars pre, rest ++ chars post, ?_⟩
  rw [chars_append, chars_append, hrest]
  simp

theorem accesses_ne_nil (b : Bool) (r : Read) : ∃ a l, r.accesses b = a :: l ∧
    (r.Indexed → ∀ e ∈ a.indexExprs, '[' ∉ e) := by
  induction r generalizing b with
  | bare nm => exact ⟨_, _, rfl, fun _ e he => absurd he (by simp [Read.access, Read.subscript])⟩
  | flat nm sub =>
    refine ⟨_, _, rfl, fun h e he => ?_⟩
    rw [mem_singleton.1 he]
    exact noBracket_words h
  | via nm pre inner post ih =>
    obtain ⟨a, l, ha, hfree⟩ := ih true
    exact ⟨a, l ++ [(Read.via nm pre inner post).access b], by rw [Read.accesses, ha]; rfl,
      fun h => hfree h.2.2⟩

/-- What an access and those behind it leave. -/
def kept (indirectArrays rArr : List Name) (a : Access) (r : List Access) : List Access :=
  if a.isRead = true ∧ a.arrayName ∈ rArr ∧ indexLoad indirectArrays a r = false then [a] else []

theorem valueReads_cons (expr : List Tok) (a : Access) (r : List Access) :
    valueReads arrays indirectArrays expr (a :: r) =
      kept indirectArrays (rArr arrays indirectArrays expr) a r ++
        valueReads arrays indirectArrays expr r := rfl

/-- The index loads of an access are left out. -/
theorem valueReads_accesses (expr : List Tok) (r : Read) (hindexed : r.Indexed)
    (hindirect : ∀ nm ∈ r.names.tail, nm ∈ indirectArrays) (b : Bool) (rest : List Access) :
    valueReads arrays indirectArrays expr (r.accesses b ++ rest) =
      kept indirectArrays (rArr arrays indirectArrays expr) (r.access b) rest ++
        valueReads arrays indirectArrays expr rest := by
  induction r generalizing b rest with
  | bare nm => exact valueReads_cons expr _ rest
  | flat nm sub => exact valueReads_cons expr _ rest
  | via nm pre inner post ih =>
    have hinner : inner.name ∈ indirectArrays := by
      obtain ⟨L, hL⟩ := name_eq_head inner
      exact hindirect _ (by simp [Read.names, hL])
    have hrest := ih hindexed.2.2 (fun x hx => hindirect x (mem_of_mem_tail hx)) true
      ((Read.via nm pre inner post).access b :: rest)
    have hload : indexLoad indirectArrays (inner.access true)
        ((Read.via nm pre inner post).access b :: rest) = true := by
      have hinfix : inner.name ++ ['['] <:+: chars (pre ++ (inner.text ++ post)) := by
        rw [← append_assoc]
        exact infix_via hindexed.2.1
      simp [indexLoad, Read.access, Read.subscript, hinner, hinfix]
    have hkept : kept indirectArrays (rArr arrays indirectArrays expr) (inner.access true)
        ((Read.via nm pre inner post).access b :: rest) = [] := by
      unfold kept
      rw [if_neg]
      rintro ⟨-, -, h⟩
      rw [hload] at h
      cases h
    rw [Read.accesses, append_assoc, singleton_append, hrest, hkept, nil_append,
      valueReads_cons]

/-- The accesses with connectors are those of the reads, in their order. -/
theorem Assign.valueReads (h : Assign arrays scalars indirectArrays items accessed) :
    valueReads arrays indirectArrays (textOf items) (accessed.flatMap fun q => q.2.accesses q.1) =
      (readsOf items).map (Read.access true) := by
  have hall : ∀ q ∈ accessed, q.1 = true →
      q.2.name ∈ rArr arrays indirectArrays (textOf items) := by
    rintro ⟨b, r⟩ hq rfl
    exact h.mem_rArr.2 ⟨r, mem_readsOf.2 (h.mem_accessed.1 hq), rfl⟩
  rw [← h.reads]
  have hindexed := h.indexed
  have hindirect := h.indirect
  clear h
  induction accessed with
  | nil => rfl
  | cons q accessed ih =>
    rcases q with ⟨b, r⟩
    have hrest := ih (fun q hq => hall q (mem_cons_of_mem _ hq))
      (fun q hq => hindexed q (mem_cons_of_mem _ hq))
      fun q hq => hindirect q (mem_cons_of_mem _ hq)
    -- the accesses behind begin with a subscript that loads nothing
    have hload : indexLoad indirectArrays (r.access b)
        (accessed.flatMap fun q => q.2.accesses q.1) = false := by
      rcases accessed with - | ⟨⟨b', r'⟩, accessed⟩
      · rfl
      · obtain ⟨a, l, ha, hfree⟩ := accesses_ne_nil b' r'
        have hfree := hfree (hindexed (b', r') (by simp))
        have hany : (a.indexExprs.any fun e => decide (((r.access b).arrayName ++ ['[']) <:+: e)) =
            false := by
          rw [any_eq_false]
          intro e he hinfix
          refine hfree e he ((of_decide_eq_true hinfix).subset ?_)
          simp
        rw [flatMap_cons, ha, cons_append, indexLoad, hany, Bool.and_false]
    rw [flatMap_cons, valueReads_accesses _ r (hindexed (b, r) (by simp))
      (hindirect (b, r) (by simp)),
      hrest]
    cases b with
    | false =>
      have hkept : kept indirectArrays (rArr arrays indirectArrays (textOf items)) (r.access false)
          (accessed.flatMap fun q => q.2.accesses q.1) = [] := by simp [kept, Read.access]
      rw [hkept, nil_append, filter_cons_of_neg (by simp)]
    | true =>
      have hmem := hall (true, r) (by simp) rfl
      have hkept : kept indirectArrays (rArr arrays indirectArrays (textOf items)) (r.access true)
          (accessed.flatMap fun q => q.2.accesses q.1) = [r.access true] := by
        rw [kept, if_pos ⟨rfl, hmem, hload⟩]
      rw [hkept, filter_cons_of_pos (by simp)]
      rfl

end Assigned

end TaskletReads
