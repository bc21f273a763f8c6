/-
# The tasklet's reads

The tasklet computes its right-hand side exactly where the loads of the subscripts do not come
between the numbers of the code and those of the connectors.
-/
import DaceFortran.TaskletReads.ReadsWired

open List

namespace TaskletReads

variable {arrays scalars indirectArrays order : List Name} {items : List Item}
  {accessed : List (Bool × Read)}

/-- The names that are arrays or scalars. -/
def readNames (arrays scalars : List Name) (expr : List Tok) : List Name :=
  (identTokens expr).filter fun nm => nm ∈ arrays ∨ nm ∈ scalars

theorem mem_inConnectors {expr : List Tok} {accesses : List Access} {c : Name} :
    c ∈ (emitTasklet arrays scalars indirectArrays expr accesses order).inConnectors ↔
      ∃ s, (c, s) ∈ (emitTasklet arrays scalars indirectArrays expr accesses order).edges := by
  simp only [emitTasklet, mem_append, mem_map, Prod.exists, exists_and_right, exists_eq_right]
  constructor
  · rintro (⟨s, hs⟩ | ⟨s, hs⟩)
    · exact ⟨s, .inr hs⟩
    · exact ⟨s, .inl hs⟩
  · rintro ⟨s, hs | hs⟩
    · exact .inr ⟨s, hs⟩
    · exact .inl ⟨s, hs⟩

/-- A connector is no name of the expression. -/
theorem Assign.connector_fresh (h : Assign arrays scalars indirectArrays items accessed) {c : Name}
    (hc : c ∈ (emitTasklet arrays scalars indirectArrays (textOf items) (accessesOf accessed)
      order).inConnectors) : .name c ∉ textOf items := by
  intro hmem
  have hfresh := h.fresh c (mem_identTokens.2 hmem)
  obtain ⟨s, hs⟩ := mem_inConnectors.1 hc
  rcases mem_append.1 hs with hs | hs
  · obtain ⟨nm, i, r, -, hocc, -⟩ := h.mem_arrayEdges.1 hs
    exact occName_fresh hfresh hocc
  · obtain ⟨sc, -, hin, -⟩ := mem_scalarEdges.1 hs
    exact inName_fresh hfresh hin

theorem value_rebuilt {scl inC : List Name} {edges : List (Name × Source)} {V : Type}
    {conn : Name → V}
    {val : Source → V} (hin : ∀ c s, (c, s) ∈ edges → c ∈ inC)
    (hconn : ∀ c s, (c, s) ∈ edges → conn c = val s) {I : List Item}
    (hscalar : ∀ sc ∈ scl, .word (.name sc) ∈ I → (inName sc, .scalar sc) ∈ edges)
    (hfresh : ∀ s, .word (.name s) ∈ I → s ∉ inC) {cs : List Name}
    (hcs : List.Forall₂ (fun c (r : Read) => Wired edges c (.access (r.access true))) cs
      (readsOf I)) :
    (rebuilt scl I cs).map (wordValue inC conn) = I.map (partValue scl val) := by
  induction I generalizing cs with
  | nil =>
    cases hcs
    rfl
  | cons it I ih =>
    have hscalar' : ∀ sc ∈ scl, .word (.name sc) ∈ I → (inName sc, .scalar sc) ∈ edges :=
      fun sc hsc hmem => hscalar sc hsc (mem_cons_of_mem _ hmem)
    have hfresh' : ∀ s, .word (.name s) ∈ I → s ∉ inC :=
      fun s hmem => hfresh s (mem_cons_of_mem _ hmem)
    cases it with
    | word t =>
      rw [rebuilt, map_cons, map_cons, ih hscalar' hfresh' hcs]
      congr 1
      cases t with
      | name s =>
        by_cases hs : s ∈ scl
        · have hedge := hscalar s hs mem_cons_self
          simp [settle, hs, wordValue, partValue, hin _ _ hedge, hconn _ _ hedge]
        · simp [settle, hs, wordValue, partValue, hfresh s mem_cons_self]
      | _ => rfl
    | read r =>
      rw [readsOf_read] at hcs
      cases hcs with
      | cons hwired hcs =>
        rw [rebuilt, map_cons, map_cons, ih hscalar' hfresh' hcs]
        congr 1
        simp [wordValue, partValue, hin _ _ hwired.1, hconn _ _ hwired.1]

theorem Assign.computes (h : Assign arrays scalars indirectArrays items accessed)
    (horder : SortedTokens (rArr arrays indirectArrays (textOf items) ++
      rScl arrays scalars (textOf items))
      order)
    (hseparate : Separate (rArr arrays indirectArrays (textOf items))
      (rScl arrays scalars (textOf items))
      order items) :
    ComputesReads (emitTasklet arrays scalars indirectArrays (textOf items)
      (accessesOf accessed) order)
      (readNames arrays scalars (textOf items)) (rScl arrays scalars (textOf items)) items := by
  have hcode := h.code horder hseparate.nested
  have hlen := conns_length order [] (readsOf items)
  have hwired := h.wired hseparate (readsOf items) [] rfl
  have hscalar : ∀ sc ∈ rScl arrays scalars (textOf items),
    Wired (emitTasklet arrays scalars indirectArrays
      (textOf items) (accessesOf accessed) order).edges (inName sc) (.scalar sc) := by
    intro sc hsc
    refine ⟨mem_append_right _ (mem_scalarEdges.2 ⟨sc, hsc, rfl, rfl⟩), fun s' hs' => ?_⟩
    rcases mem_append.1 hs' with hs' | hs'
    · obtain ⟨nm, i, r, hr, hocc, -⟩ := h.mem_arrayEdges.1 hs'
      obtain ⟨hmem, hname⟩ := mem_filter.1 (mem_of_getElem? hr)
      exact absurd hocc (hseparate.apart sc hsc nm (h.mem_rArr.2 ⟨r, hmem, by simpa using hname⟩) i
        (List.getElem?_eq_some_iff.1 hr).1)
    · obtain ⟨sc', -, hin, rfl⟩ := mem_scalarEdges.1 hs'
      rw [inName_inj hin]
  have hvalueFresh : ∀ s, .word (.name s) ∈ items → s ∉ (emitTasklet arrays scalars indirectArrays
      (textOf items) (accessesOf accessed) order).inConnectors :=
    fun s hs hin => h.connector_fresh hin (mem_textOf.2 (.inl hs))
  refine ⟨⟨_, hwired, hcode⟩, fun sc hsc _ => hscalar sc hsc, fun c hc => ?_, fun nm hnm hmem => ?_,
    fun V conn val hconn => ?_⟩
  · -- a declared connector is that of a scalar outside the subscripts or of a read
    show .name c ∈ rewriteReadConnectors (textOf items) order (rScl arrays scalars (textOf items))
    rw [hcode, mem_rebuilt hlen]
    obtain ⟨s, hs⟩ := mem_inConnectors.1 hc
    rcases mem_append.1 hs with hs | hs
    · obtain ⟨nm, i, r, hr, rfl, -⟩ := h.mem_arrayEdges.1 hs
      refine .inr ⟨_, occName_mem_conns hseparate.hidden (readsOf items) [] rfl
        (Nat.zero_le i) ?_, rfl⟩
      exact (List.getElem?_eq_some_iff.1 hr).1
    · obtain ⟨sc, hsc, rfl, -⟩ := mem_scalarEdges.1 hs
      refine .inl ⟨.name sc, hseparate.outside sc hsc, ?_⟩
      simp [settle, hsc]
  · -- a name of a read is neither a word left nor a connector
    obtain ⟨hnm, hread⟩ := mem_filter.1 hnm
    have hread : nm ∈ arrays ∨ nm ∈ scalars := by simpa using hread
    have hfresh := h.fresh nm hnm
    have hmem : .name nm ∈ rewriteReadConnectors (textOf items) order
        (rScl arrays scalars (textOf items)) := hmem
    rw [hcode, mem_rebuilt hlen] at hmem
    rcases hmem with ⟨w, hw, hsettle⟩ | ⟨c, hc, hname⟩
    · cases w with
      | name s =>
        simp only [settle, and_self] at hsettle
        split_ifs at hsettle with hs
        · exact inName_fresh hfresh (by simpa using hsettle)
        · have hsame : nm = s := by simpa using hsettle
          subst hsame
          have hnot : nm ∉ arrays := fun harray => (h.words _ hw).2.2 nm harray rfl
          exact hs (mem_rScl.2 ⟨mem_identTokens.1 hnm, hread.resolve_left hnot, hnot⟩)
      | _ => cases hsettle
    · have hmem : nm ∈ conns order [] (readsOf items) := by
        have hsame : nm = c := by simpa using hname
        rwa [hsame]
      have hocc : ∀ (R : List Read) seen, nm ∉ conns order seen R := by
        intro R
        induction R with
        | nil =>
          intro seen h
          cases h
        | cons r R ih =>
          intro seen h
          rcases mem_cons.1 h with h | h
          · exact occName_fresh hfresh h
          · exact ih _ h
      exact hocc _ _ hmem
  · rw [← value_rebuilt (fun c s hs => mem_inConnectors.2 ⟨s, hs⟩) hconn
      (fun sc hsc _ => (hscalar sc hsc).1) hvalueFresh hwired]
    exact congrArg (List.map _) hcode

/-! ## Necessary -/

theorem pairwise_of_split {α : Type} {p : α → α → Prop} (l : List α) :
    (∀ A r B, l = A ++ r :: B → ∀ r' ∈ B, p r r') → l.Pairwise p := by
  induction l with
  | nil => exact fun _ => .nil
  | cons a l ih =>
    intro h
    refine .cons (h [] a l rfl) (ih fun A r B hl => ?_)
    exact h (a :: A) r B (by rw [hl]; rfl)

/-- The last read of an array. -/
theorem exists_last {nm : Name} {B : List Read} (h : ∃ r ∈ B, r.name = nm) :
    ∃ B₁ r B₂, B = B₁ ++ r :: B₂ ∧ r.name = nm ∧ named nm B₂ = [] := by
  induction B with
  | nil =>
    obtain ⟨r, hr, -⟩ := h
    cases hr
  | cons b B ih =>
    by_cases hB : ∃ r ∈ B, r.name = nm
    · obtain ⟨B₁, r, B₂, rfl, hr, hnone⟩ := ih hB
      exact ⟨b :: B₁, r, B₂, rfl, hr, hnone⟩
    · obtain ⟨r, hr, hname⟩ := h
      rcases mem_cons.1 hr with rfl | hr
      · refine ⟨[], r, B, rfl, hname, filter_eq_nil_iff.2 fun r' hr' => ?_⟩
        exact fun h => hB ⟨r', hr', by simpa using h⟩
      · exact absurd ⟨r, hr, hname⟩ hB

theorem conns_split (A : List Read) (r : Read) (B : List Read) : ∀ seen,
    conns order seen (A ++ r :: B) = conns order seen A ++
      occName r.name (number order (seen ++ A.map Read.names) r.name) ::
        conns order (seen ++ (A ++ [r]).map Read.names) B := by
  induction A with
  | nil =>
    intro seen
    simp [conns]
  | cons a A ih =>
    intro seen
    rw [cons_append, conns, conns, ih]
    simp

theorem number_append_map (order : List Name) (A B : List Read) (nm : Name) :
    number order ((A ++ B).map Read.names) nm =
      number order (A.map Read.names) nm + number order (B.map Read.names) nm := by
  unfold number
  rw [map_append, filter_append, length_append]

theorem mem_of_forall₂ {α β : Type} {p : α → β → Prop} {l : List α} {l' : List β}
    (h : List.Forall₂ p l l') {a : α} (ha : a ∈ l) : ∃ b ∈ l', p a b := by
  induction h with
  | nil => cases ha
  | cons hab _ ih =>
    rcases mem_cons.1 ha with rfl | ha
    · exact ⟨_, mem_cons_self, hab⟩
    · obtain ⟨b, hb, hab⟩ := ih ha
      exact ⟨b, mem_cons_of_mem _ hb, hab⟩

theorem Assign.separate (h : Assign arrays scalars indirectArrays items accessed)
    (horder : SortedTokens (rArr arrays indirectArrays (textOf items) ++
      rScl arrays scalars (textOf items))
      order)
    (hcomputes : ComputesReads
      (emitTasklet arrays scalars indirectArrays (textOf items) (accessesOf accessed) order)
      (readNames arrays scalars (textOf items)) (rScl arrays scalars (textOf items)) items) :
    Separate (rArr arrays indirectArrays (textOf items))
      (rScl arrays scalars (textOf items)) order items := by
  obtain ⟨cs, hwired, hcode⟩ := hcomputes.code
  have hcode : rewriteReadConnectors (textOf items) order (rScl arrays scalars (textOf items)) =
      rebuilt (rScl arrays scalars (textOf items)) items cs := hcode
  have hlen := hwired.length_eq
  have hnested := h.nested horder hlen hcode
  have hsame : cs = conns order [] (readsOf items) :=
    rebuilt_inj hlen (conns_length order [] (readsOf items))
      (hcode.symm.trans (h.code horder hnested))
  have hlt : ∀ A r B, readsOf items = A ++ r :: B →
      number order (A.map Read.names) r.name < (named r.name (readsOf items)).length := by
    intro A r B hsplit
    have hwired := hwired
    rw [hsame, hsplit, conns_split, nil_append] at hwired
    have hdrop := forall₂_drop_append _ _ _ hwired
    rw [drop_append_of_le_length (conns_length order [] A).ge, drop_of_length_le
      (conns_length order [] A).le, nil_append] at hdrop
    cases hdrop with
    | cons hread _ => exact h.number_lt hread
  have hscalarEdge : ∀ sc ∈ rScl arrays scalars (textOf items), (inName sc, Source.scalar sc) ∈
      (emitTasklet arrays scalars indirectArrays (textOf items)
        (accessesOf accessed) order).edges :=
    fun sc hsc => mem_append_right _ (mem_scalarEdges.2 ⟨sc, hsc, rfl, rfl⟩)
  -- a declared connector is that of a scalar outside the subscripts or of a read
  have hdeclared : ∀ c ∈ (emitTasklet arrays scalars indirectArrays (textOf items)
    (accessesOf accessed)
      order).inConnectors,
      (∃ sc ∈ rScl arrays scalars (textOf items), c = inName sc ∧ .word (.name sc) ∈ items) ∨
        ∃ r ∈ readsOf items, Wired (emitTasklet arrays scalars indirectArrays (textOf items)
          (accessesOf accessed) order).edges c (.access (r.access true)) := by
    intro c hc
    have hmem : .name c ∈ rewriteReadConnectors (textOf items) order
        (rScl arrays scalars (textOf items)) := hcomputes.declared c hc
    rw [hcode, mem_rebuilt hlen] at hmem
    rcases hmem with ⟨w, hw, hsettle⟩ | ⟨c', hc', hname⟩
    · cases w with
      | name s =>
        simp only [settle, and_self] at hsettle
        split_ifs at hsettle with hs
        · exact .inl ⟨s, hs, by simpa using hsettle, hw⟩
        · have hsame : c = s := by simpa using hsettle
          exact absurd (mem_textOf.2 (.inl (hsame ▸ hw))) (h.connector_fresh hc)
      | _ => cases hsettle
    · have hsame : c = c' := by simpa using hname
      exact .inr (mem_of_forall₂ hwired (hsame ▸ hc'))
  refine ⟨hnested, pairwise_of_split _ fun A r B hsplit r' hr' habove => ?_, fun sc hsc => ?_,
    fun sc hsc nm hnm i hi hname => ?_⟩
  · -- the last read of the array behind the load would have too high a number
    by_contra hne
    obtain ⟨B₁, r'', B₂, rfl, hname, hnone⟩ := exists_last ⟨r', hr', rfl⟩
    have hlast := hlt (A ++ r :: B₁) r'' B₂ (by rw [hsplit]; simp)
    have hA := named_le_number order A r'.name
    have hB := named_le_number order B₁ r'.name
    rw [hname, number_append_map, number_cons, if_pos habove, hsplit, named_append,
      named_cons_ne hne,
      named_append, named_cons_self hname, hnone, length_append, length_append,
      length_singleton] at hlast
    omega
  · obtain ⟨sc', -, hin, hword⟩ | ⟨r, -, hread⟩ := hdeclared (inName sc)
      (mem_inConnectors.2 ⟨_, hscalarEdge sc hsc⟩)
    · rwa [inName_inj hin]
    · cases hread.2 _ (hscalarEdge sc hsc)
  · have hget : (named nm (readsOf items))[i]? = some (named nm (readsOf items))[i] :=
      List.getElem?_eq_getElem hi
    have hedge := mem_append_left
      (scalarEdges arrays scalars (textOf items)) (h.mem_arrayEdges.2 ⟨nm, i, _, hget, rfl, rfl⟩)
    obtain ⟨sc', hsc', hin, hword⟩ | ⟨r, -, hread⟩ :=
      hdeclared (occName nm i) (mem_inConnectors.2 ⟨_, hedge⟩)
    · have hwired := hcomputes.scalar sc' hsc' hword
      rw [← hin] at hwired
      cases hwired.2 _ hedge
    · rw [← hname] at hread
      cases hread.2 _ (hscalarEdge sc hsc)

/-- The reads are wired to their accesses exactly where the expression keeps them apart. -/
theorem computesReads_iff_separate (h : Assign arrays scalars indirectArrays items accessed)
    (horder : SortedTokens (rArr arrays indirectArrays (textOf items) ++
      rScl arrays scalars (textOf items))
      order) :
    ComputesReads (emitTasklet arrays scalars indirectArrays (textOf items)
      (accessesOf accessed) order)
      (readNames arrays scalars (textOf items)) (rScl arrays scalars (textOf items)) items ↔
    Separate (rArr arrays indirectArrays (textOf items))
      (rScl arrays scalars (textOf items)) order items :=
  ⟨h.separate horder, h.computes horder⟩

/-! ## Subscripts with any number of loads -/

mutual

/-- An occurrence of an array, with any loads in its subscript. -/
inductive Term
  | bare (nm : Name)
  | index (nm : Name) (sub : Subscript)

/-- The words and the loads of a subscript. -/
inductive Subscript
  | nil
  | word (t : Tok) (rest : Subscript)
  | load (r : Term) (rest : Subscript)

end

mutual

def Term.text : Term → List Tok
  | .bare nm => [.name nm]
  | .index nm sub => .name nm :: .lsq :: (sub.text ++ [.rsq])

def Subscript.text : Subscript → List Tok
  | .nil => []
  | .word t rest => t :: rest.text
  | .load r rest => r.text ++ rest.text

end

mutual

/-- `collectReads`: the loads of the subscript in their order, then the access itself. -/
def Term.accesses (isRead : Bool) : Term → List Access
  | .bare nm => [⟨nm, isRead, []⟩]
  | .index nm sub => sub.accesses ++ [⟨nm, isRead, [chars sub.text]⟩]

@[inherit_doc Term.accesses]
def Subscript.accesses : Subscript → List Access
  | .nil => []
  | .word _ rest => rest.accesses
  | .load r rest => r.accesses true ++ rest.accesses

end

mutual

/-- Each load of a subscript is directly before the access it indexes: no access of another load is
between the two. -/
def Term.Direct : Term → Prop
  | .bare _ => True
  | .index _ sub => sub.Direct

@[inherit_doc Term.Direct]
def Subscript.Direct : Subscript → Prop
  | .nil => True
  | .word _ rest => rest.Direct
  | .load r rest => r.Direct ∧ rest.accesses = []

end

mutual

/-- The read that is written so, with the first load of each subscript. -/
def Term.read : Term → Read
  | .bare nm => .bare nm
  | .index nm sub =>
    match sub.split with
    | (pre, none) => .flat nm pre
    | (pre, some (inner, post)) => .via nm pre inner post

/-- The words before the first load, the load, and the words behind it. -/
def Subscript.split : Subscript → List Tok × Option (Read × List Tok)
  | .nil => ([], none)
  | .word t rest => (t :: rest.split.1, rest.split.2)
  | .load r rest => ([], some (r.read, rest.text))

end

mutual

/-- A term whose loads are direct is its read, in the text and in the accesses. -/
theorem Term.read_spec (r : Term) (h : r.Direct) :
    r.read.text = r.text ∧ ∀ b, r.read.accesses b = r.accesses b := by
  cases r with
  | bare nm => exact ⟨rfl, fun b => rfl⟩
  | index nm sub =>
    have hsub := sub.split_spec h
    rw [Term.read]
    split
    · next pre hsplit =>
      rw [hsplit] at hsub
      obtain ⟨htext, haccesses⟩ := hsub
      refine ⟨by rw [Term.text, htext, Read.text], fun b => ?_⟩
      rw [Term.accesses, haccesses, htext]
      rfl
    · next pre inner post hsplit =>
      rw [hsplit] at hsub
      obtain ⟨htext, haccesses⟩ := hsub
      refine ⟨by rw [Term.text, htext, Read.text], fun b => ?_⟩
      rw [Term.accesses, haccesses, htext]
      rfl

theorem Subscript.split_spec (sub : Subscript) (h : sub.Direct) :
    match sub.split with
    | (pre, none) => sub.text = pre ∧ sub.accesses = []
    | (pre, some (inner, post)) => sub.text = pre ++ inner.text ++ post ∧
        sub.accesses = inner.accesses true := by
  cases sub with
  | nil => exact ⟨rfl, rfl⟩
  | word t rest =>
    have hrest := rest.split_spec h
    rw [Subscript.split]
    cases hsplit : rest.split with
    | mk pre load =>
      rw [hsplit] at hrest
      cases load with
      | none => exact ⟨congrArg (t :: ·) hrest.1, hrest.2⟩
      | some q => exact ⟨congrArg (t :: ·) hrest.1, hrest.2⟩
  | load r rest =>
    obtain ⟨htext, haccesses⟩ := r.read_spec h.1
    refine ⟨by rw [Subscript.text, htext]; rfl, ?_⟩
    rw [Subscript.accesses, h.2, append_nil, haccesses]

end

/-- A part of an expression. -/
inductive Part
  | word (t : Tok)
  | term (r : Term)

def Part.text : Part → List Tok
  | .word t => [t]
  | .term r => r.text

def Part.item : Part → Item
  | .word t => .word t
  | .term r => .read r.read

/-- The text of an assignment's right-hand side. -/
def exprOf (parts : List Part) : List Tok := parts.flatMap Part.text

/-- The accesses of an assignment, each with those of its subscript. -/
def accessList (accessed : List (Bool × Term)) : List Access :=
  accessed.flatMap fun q => q.2.accesses q.1

/-- Its reads. -/
def readList (accessed : List (Bool × Term)) : List (Bool × Read) :=
  accessed.map fun q => (q.1, q.2.read)

theorem textOf_item {parts : List Part} (h : ∀ r, .term r ∈ parts → r.Direct) :
    textOf (parts.map Part.item) = exprOf parts := by
  induction parts with
  | nil => rfl
  | cons q parts ih =>
    have hrest := ih fun r hr => h r (mem_cons_of_mem q hr)
    rw [map_cons, textOf_cons, hrest, exprOf, exprOf, flatMap_cons]
    cases q with
    | word t => rfl
    | term r =>
      rw [Part.item, Item.text, (r.read_spec (h r mem_cons_self)).1]
      rfl

theorem accessesOf_readList {accessed : List (Bool × Term)} (h : ∀ q ∈ accessed, q.2.Direct) :
    accessesOf (readList accessed) = accessList accessed := by
  induction accessed with
  | nil => rfl
  | cons q accessed ih =>
    have hrest := ih fun q' hq' => h q' (mem_cons_of_mem q hq')
    have hone := (q.2.read_spec (h q mem_cons_self)).2 q.1
    rw [accessesOf, readList, map_cons, flatMap_cons, hone, accessList, flatMap_cons]
    exact congrArg (q.2.accesses q.1 ++ ·) hrest

variable {parts : List Part} {terms : List (Bool × Term)}

/-- **The tasklet computes its reads exactly where the expression keeps them apart**, with each
index load directly before the access it indexes. -/
theorem emitTasklet_computesReads_iff (hparts : ∀ r, .term r ∈ parts → r.Direct)
    (hterms : ∀ q ∈ terms, q.2.Direct)
    (h : Assign arrays scalars indirectArrays (parts.map Part.item) (readList terms))
    (horder : SortedTokens (rArr arrays indirectArrays (exprOf parts) ++
      rScl arrays scalars (exprOf parts)) order) :
    ComputesReads (emitTasklet arrays scalars indirectArrays (exprOf parts)
      (accessList terms) order)
      (readNames arrays scalars (exprOf parts)) (rScl arrays scalars (exprOf parts))
      (parts.map Part.item) ↔
    Separate (rArr arrays indirectArrays (exprOf parts)) (rScl arrays scalars (exprOf parts)) order
      (parts.map Part.item) := by
  rw [← textOf_item hparts] at horder ⊢
  rw [← accessesOf_readList hterms]
  exact computesReads_iff_separate h horder

/-- `cell[i]` -/
def cellAt (i : Char) : Term := .index ['c', 'e', 'l', 'l'] (.word (.text [i]) .nil)

/-- `x[cell[2]]` -/
def xAtCell : Term := .index ['x'] (.load (cellAt '2') .nil)

/-- `cell[1] + x[cell[2]]` -/
def valueFirst : List Part := [.term (cellAt '1'), .word (.text ['+']), .term xAtCell]

/-- `x[cell[2]] + cell[1]` -/
def loadFirst : List Part := [.term xAtCell, .word (.text ['+']), .term (cellAt '1')]

/-- The value before the load: the tasklet computes it. -/
theorem emitTasklet_computesReads_iff_valueFirst :
    ComputesReads (emitTasklet [['x'], ['c', 'e', 'l', 'l']] [] [['c', 'e', 'l', 'l']]
      (exprOf valueFirst) (accessList [(true, cellAt '1'), (true, xAtCell)])
      [['c', 'e', 'l', 'l'], ['x']])
      (readNames [['x'], ['c', 'e', 'l', 'l']] [] (exprOf valueFirst))
      (rScl [['x'], ['c', 'e', 'l', 'l']] [] (exprOf valueFirst)) (valueFirst.map Part.item) :=
  (emitTasklet_computesReads_iff
    (by simp [valueFirst, cellAt, xAtCell, Term.Direct, Subscript.Direct, Subscript.accesses])
    (by simp [cellAt, xAtCell, Term.Direct, Subscript.Direct, Subscript.accesses])
    ⟨by simp [valueFirst, Part.item],
      by simp [valueFirst, Part.item, cellAt, xAtCell, Term.read, Subscript.split, Subscript.text,
        Read.Balanced, level],
      by simp [valueFirst, Part.item, cellAt, xAtCell, Term.read, Subscript.split, Read.names],
      by simp [valueFirst, Part.item, cellAt, xAtCell, Term.read, Subscript.split, Subscript.text,
        Read.words],
      by decide, rfl,
      by simp [readList, cellAt, xAtCell, Term.read, Subscript.split, Subscript.text, Read.Indexed,
        Read.subscript, Tok.chars],
      by simp [readList, cellAt, xAtCell, Term.read, Subscript.split, Read.names]⟩
    ⟨by decide, by
      have hnames : rArr [['x'], ['c', 'e', 'l', 'l']] [['c', 'e', 'l', 'l']] (exprOf valueFirst) ++
          rScl [['x'], ['c', 'e', 'l', 'l']] [] (exprOf valueFirst) =
            [['x'], ['c', 'e', 'l', 'l']] := by
        decide
      rw [hnames]
      simp [or_comm], by decide⟩).2
    ⟨by decide, by decide, by simp [rScl], by simp [rScl]⟩

/-- The index array read as a value behind the access it indexes: the load takes the first
number. -/
theorem not_computesReads_loadFirst :
    ¬ ComputesReads (emitTasklet [['x'], ['c', 'e', 'l', 'l']] [] [['c', 'e', 'l', 'l']]
      (exprOf loadFirst) (accessList [(true, xAtCell), (true, cellAt '1')])
      [['c', 'e', 'l', 'l'], ['x']])
      (readNames [['x'], ['c', 'e', 'l', 'l']] [] (exprOf loadFirst))
      (rScl [['x'], ['c', 'e', 'l', 'l']] [] (exprOf loadFirst)) (loadFirst.map Part.item) := by
  intro h
  have hdeclared := h.declared (occName ['c', 'e', 'l', 'l'] 0) (by decide)
  revert hdeclared
  decide

end TaskletReads
