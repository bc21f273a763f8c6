/-
# Array accesses and inline indirect subscripts

The accesses the bridge lists for an assignment (`AccessInfo`, assigns.cpp) and
what builder/access.py does with the array reads inside their subscripts:
every such read (`edge_idx[jc,1]`) gets a symbol of its own, defined on an
interstate edge, and the subscripts are rendered with the symbol in its place.
-/
import DaceFortran.Lib.AssocLists
import DaceFortran.Builder.DoLoop

/-! ## Assignments and their accesses -/

/-- One array access of an assignment. -/
structure AccessInfo where
  arrayName : Name
  isWrite : Bool
  indexExprs : List Expr
  deriving DecidableEq

/-- An assignment statement; `subs` is empty for a scalar or a symbol. -/
structure Assign where
  target : Name
  subs : List Expr := []
  value : Expr
  deriving DecidableEq

mutual
/-- `collectReads`: one access per array read, the reads of its subscripts first. -/
def Expr.reads : Expr → List AccessInfo
  | .lit _ => []
  | .var _ => []
  | .load a subs => Expr.readsList subs ++ [⟨a, false, subs⟩]
  | .add a b => a.reads ++ b.reads
  | .app _ args => Expr.readsList args
def Expr.readsList : List Expr → List AccessInfo
  | [] => []
  | e :: es => e.reads ++ Expr.readsList es
end

/-- The accesses of an assignment: the write of an array target, then the reads
of the value. -/
def Assign.accesses (a : Assign) : List AccessInfo :=
  (if a.subs = [] then [] else [⟨a.target, true, a.subs⟩]) ++ a.value.reads

mutual
/-- The identifiers of the text the bridge renders for a value, where an array
read is its bare name. -/
def Expr.tokens : Expr → List Name
  | .lit _ => []
  | .var x => [x]
  | .load a _ => [a]
  | .add a b => a.tokens ++ b.tokens
  | .app f args => .src f :: Expr.tokensList args
def Expr.tokensList : List Expr → List Name
  | [] => []
  | e :: es => e.tokens ++ Expr.tokensList es
end

mutual
/-- The identifiers of an expression that are not subscripted. -/
def Expr.atoms : Expr → List Name
  | .lit _ => []
  | .var x => [x]
  | .load _ subs => Expr.atomsList subs
  | .add a b => a.atoms ++ b.atoms
  | .app f args => .src f :: Expr.atomsList args
def Expr.atomsList : List Expr → List Name
  | [] => []
  | e :: es => e.atoms ++ Expr.atomsList es
end

/-- The text of an access: `arr[i,j]`. -/
def AccessInfo.text (ac : AccessInfo) : Expr := .load ac.arrayName ac.indexExprs

/-- The array reads of an expression at any depth, inner ones first. -/
def Expr.loads (e : Expr) : List Expr := e.reads.map AccessInfo.text

/-- The array reads of a list of expressions. -/
def Expr.loadsList (es : List Expr) : List Expr := (Expr.readsList es).map AccessInfo.text

/-- The array reads in the subscripts of an array read. -/
def Expr.innerLoads : Expr → List Expr
  | .load _ subs => Expr.loadsList subs
  | _ => []

/-! ## Inline indirect expressions -/

mutual
/-- `_visit` of `indirect_exprs`: collect the array reads of an expression, the
inner ones ahead of the enclosing one, each text once. -/
def Expr.visit : Expr → List Expr → List Expr
  | .lit _, out => out
  | .var _, out => out
  | .load a subs, out =>
      let out := Expr.visitList subs out
      if .load a subs ∈ out then out else out ++ [.load a subs]
  | .add a b, out => b.visit (a.visit out)
  | .app _ args, out => Expr.visitList args out
def Expr.visitList : List Expr → List Expr → List Expr
  | [], out => out
  | e :: es, out => Expr.visitList es (e.visit out)
end

/-- `indirect_exprs`: the indirect index expressions an assignment reads. -/
def indirectExprs (a : Assign) : List Expr :=
  a.accesses.foldl (fun out ac => Expr.visitList ac.indexExprs out) []

/-- The prefix of the symbol minted for an array read: `<arr>_at`. -/
def Expr.atPrefix : Expr → String
  | .load (.src s) _ => s ++ "_at"
  | _ => "_at"

/-- The map from indirect expressions to their symbols, in insertion order. -/
abbrev IndirectSyms := List (Expr × Name)

/-- Mint a symbol for an expression that has none yet. -/
def IndirectSyms.mint (gid : ℕ) (m : IndirectSyms) (e : Expr) : IndirectSyms :=
  if e ∈ m.map Prod.fst then m else m ++ [(e, .minted e.atPrefix (gid + m.length))]

/-- `collect_indirect`: a fresh symbol for each distinct indirect expression of
the assignments; `gid` is the next free id. -/
def collectIndirect (gid : ℕ) (assigns : List Assign) : IndirectSyms :=
  (assigns.flatMap indirectExprs).foldl (IndirectSyms.mint gid) []

mutual
/-- `_rewrite_inner_indirects`: the outermost array reads that have a symbol are
replaced by it. -/
def Expr.lift (m : IndirectSyms) : Expr → Expr
  | .lit n => .lit n
  | .var x => .var x
  | .load a subs =>
      match m.lookup (.load a subs) with
      | some s => .var s
      | none => .load a (Expr.liftList m subs)
  | .add a b => .add (a.lift m) (b.lift m)
  | .app f args => .app f (Expr.liftList m args)
def Expr.liftList (m : IndirectSyms) : List Expr → List Expr
  | [] => []
  | e :: es => e.lift m :: Expr.liftList m es
end

/-- `indirect_to_dace`: an indirect expression with the reads in its subscripts
replaced by their symbols. -/
def indirectToDace (m : IndirectSyms) : Expr → Expr
  | .load a subs => .load a (Expr.liftList m subs)
  | e => e

mutual
/-- The value a tasklet computes: every array read goes through a memlet whose
subset has the symbols of the indirect subscripts (`build_memlet_index`). -/
def Expr.withMemlets (m : IndirectSyms) : Expr → Expr
  | .lit n => .lit n
  | .var x => .var x
  | .load a subs => .load a (Expr.liftList m subs)
  | .add a b => .add (a.withMemlets m) (b.withMemlets m)
  | .app f args => .app f (Expr.withMemletsList m args)
def Expr.withMemletsList (m : IndirectSyms) : List Expr → List Expr
  | [] => []
  | e :: es => e.withMemlets m :: Expr.withMemletsList m es
end

mutual
/-- The walk of `array_read_to_dace_expr`: a bare array name takes the
subscripts of the next read access if it names it, and is left bare otherwise. -/
def Expr.renderReads : Expr → List AccessInfo → Expr × List AccessInfo
  | .lit n, reads => (.lit n, reads)
  | .var x, reads => (.var x, reads)
  | .load a _, reads =>
      match reads with
      | ac :: rest => if ac.arrayName = a then (.load a ac.indexExprs, rest) else (.var a, reads)
      | [] => (.var a, [])
  | .add a b, reads =>
      let (a', reads) := a.renderReads reads
      let (b', reads) := b.renderReads reads
      (.add a' b', reads)
  | .app f args, reads =>
      let (args', reads) := Expr.renderReadsList args reads
      (.app f args', reads)
def Expr.renderReadsList : List Expr → List AccessInfo → List Expr × List AccessInfo
  | [], reads => ([], reads)
  | e :: es, reads =>
      let (e', reads) := e.renderReads reads
      let (es', reads) := Expr.renderReadsList es reads
      (e' :: es', reads)
end

/-- `array_read_to_dace_expr`: the interstate expression for a symbol's value. -/
def arrayReadToDaceExpr (a : Assign) : Expr :=
  (a.value.renderReads (a.accesses.filter (fun ac => !ac.isWrite))).1

/-- No array read has an array read in its subscripts. -/
def Expr.Flat (e : Expr) : Prop := ∀ ac ∈ e.reads, Expr.loadsList ac.indexExprs = []

/-! ## Which reads an expression has -/

theorem Expr.loads_load (a : Name) (subs : List Expr) :
    (Expr.load a subs).loads = Expr.loadsList subs ++ [.load a subs] := by
  simp [Expr.loads, Expr.loadsList, Expr.reads, AccessInfo.text]

theorem Expr.loads_add (a b : Expr) : (Expr.add a b).loads = a.loads ++ b.loads := by
  simp [Expr.loads, Expr.reads]

theorem Expr.loads_app (f : String) (args : List Expr) :
    (Expr.app f args).loads = Expr.loadsList args := by
  simp [Expr.loads, Expr.loadsList, Expr.reads]

theorem Expr.loadsList_cons (e : Expr) (es : List Expr) :
    Expr.loadsList (e :: es) = e.loads ++ Expr.loadsList es := by
  simp [Expr.loads, Expr.loadsList, Expr.readsList]

mutual
/-- `_visit` adds exactly the array reads of the expression. -/
theorem Expr.mem_visit {x : Expr} :
    ∀ (e : Expr) (out : List Expr), x ∈ e.visit out ↔ x ∈ out ∨ x ∈ e.loads
  | .lit _, out => by simp [Expr.visit, Expr.loads, Expr.reads]
  | .var _, out => by simp [Expr.visit, Expr.loads, Expr.reads]
  | .load a subs, out => by
      simp only [Expr.visit, Expr.loads_load, List.mem_append, List.mem_singleton]
      split_ifs with h
      · rw [Expr.mem_visitList subs]
        constructor
        · rintro (hx | hx)
          · exact Or.inl hx
          · exact Or.inr (Or.inl hx)
        · rintro (hx | hx | rfl)
          · exact Or.inl hx
          · exact Or.inr hx
          · exact (Expr.mem_visitList subs out).mp h
      · rw [List.mem_append, Expr.mem_visitList subs, List.mem_singleton, or_assoc]
  | .add a b, out => by
      simp only [Expr.visit, Expr.loads_add, Expr.mem_visit b, Expr.mem_visit a,
        List.mem_append, or_assoc]
  | .app _ args, out => by
      simpa [Expr.visit, Expr.loads_app] using Expr.mem_visitList args out
theorem Expr.mem_visitList {x : Expr} :
    ∀ (es out : List Expr), x ∈ Expr.visitList es out ↔ x ∈ out ∨ x ∈ Expr.loadsList es
  | [], out => by simp [Expr.visitList, Expr.loadsList, Expr.readsList]
  | e :: es, out => by
      simp only [Expr.visitList, Expr.loadsList_cons, Expr.mem_visitList es, Expr.mem_visit e,
        List.mem_append, or_assoc]
end

variable {x : Expr} {m : IndirectSyms}

variable {a : Assign} {gid : ℕ}

/-- An indirect expression is an array read in some access's subscripts. -/
theorem mem_indirectExprs :
    x ∈ indirectExprs a ↔ ∃ ac ∈ a.accesses, x ∈ Expr.loadsList ac.indexExprs := by
  have hgen : ∀ (acs : List AccessInfo) (out : List Expr),
      x ∈ acs.foldl (fun out ac => Expr.visitList ac.indexExprs out) out ↔
        x ∈ out ∨ ∃ ac ∈ acs, x ∈ Expr.loadsList ac.indexExprs := by
    intro acs
    induction acs with
    | nil => simp
    | cons ac acs ih =>
        intro out
        simp only [List.foldl_cons, ih, Expr.mem_visitList, List.mem_cons, exists_eq_or_imp,
          or_assoc]
  simpa [indirectExprs] using hgen a.accesses []

mutual
/-- The reads in the subscripts of a read of `e` are reads of `e`. -/
theorem Expr.loads_closed {x y : Expr} :
    ∀ e : Expr, x ∈ e.loads → y ∈ x.innerLoads → y ∈ e.loads
  | .lit _, hx, _ => by simp [Expr.loads, Expr.reads] at hx
  | .var _, hx, _ => by simp [Expr.loads, Expr.reads] at hx
  | .load a subs, hx, hy => by
      rw [Expr.loads_load, List.mem_append, List.mem_singleton] at *
      rcases hx with hx | rfl
      · exact Or.inl (Expr.loadsList_closed subs hx hy)
      · exact Or.inl hy
  | .add a b, hx, hy => by
      rw [Expr.loads_add, List.mem_append] at *
      rcases hx with hx | hx
      · exact Or.inl (Expr.loads_closed a hx hy)
      · exact Or.inr (Expr.loads_closed b hx hy)
  | .app _ args, hx, hy => by
      rw [Expr.loads_app] at *
      exact Expr.loadsList_closed args hx hy
theorem Expr.loadsList_closed {x y : Expr} :
    ∀ es : List Expr, x ∈ Expr.loadsList es → y ∈ x.innerLoads → y ∈ Expr.loadsList es
  | [], hx, _ => by simp [Expr.loadsList, Expr.readsList] at hx
  | e :: es, hx, hy => by
      rw [Expr.loadsList_cons, List.mem_append] at *
      rcases hx with hx | hx
      · exact Or.inl (Expr.loads_closed e hx hy)
      · exact Or.inr (Expr.loadsList_closed es hx hy)
end

mutual
/-- The names of a read of `e` are names of `e`. -/
theorem Expr.idents_of_mem_loads {x : Expr} {y : Name} :
    ∀ e : Expr, x ∈ e.loads → y ∈ x.idents → y ∈ e.idents
  | .lit _, hx, _ => by simp [Expr.loads, Expr.reads] at hx
  | .var _, hx, _ => by simp [Expr.loads, Expr.reads] at hx
  | .load a subs, hx, hy => by
      rw [Expr.loads_load, List.mem_append, List.mem_singleton] at hx
      rcases hx with hx | rfl
      · exact List.mem_cons_of_mem a (Expr.identsList_of_mem_loadsList subs hx hy)
      · exact hy
  | .add a b, hx, hy => by
      rw [Expr.loads_add, List.mem_append] at hx
      rcases hx with hx | hx
      · exact List.mem_append_left _ (Expr.idents_of_mem_loads a hx hy)
      · exact List.mem_append_right _ (Expr.idents_of_mem_loads b hx hy)
  | .app f args, hx, hy => by
      rw [Expr.loads_app] at hx
      exact List.mem_cons_of_mem _ (Expr.identsList_of_mem_loadsList args hx hy)
theorem Expr.identsList_of_mem_loadsList {x : Expr} {y : Name} :
    ∀ es : List Expr, x ∈ Expr.loadsList es → y ∈ x.idents → y ∈ Expr.identsList es
  | [], hx, _ => by simp [Expr.loadsList, Expr.readsList] at hx
  | e :: es, hx, hy => by
      rw [Expr.loadsList_cons, List.mem_append] at hx
      rcases hx with hx | hx
      · exact List.mem_append_left _ (Expr.idents_of_mem_loads e hx hy)
      · exact List.mem_append_right _ (Expr.identsList_of_mem_loadsList es hx hy)
end

variable {y s : Name}

/-- The names in the subscripts of an access are names of the statement. -/
theorem Assign.idents_indexExprs {ac : AccessInfo} (hac : ac ∈ a.accesses)
    (hy : y ∈ Expr.identsList ac.indexExprs) : y ∈ a.value.idents ∨ y ∈ Expr.identsList a.subs := by
  rcases List.mem_append.mp hac with h | h
  · split_ifs at h with hnil
    · simp at h
    · rw [List.mem_singleton.mp h] at hy
      exact Or.inr hy
  · have hload : ac.text ∈ a.value.loads := List.mem_map.mpr ⟨ac, h, rfl⟩
    exact Or.inl (Expr.idents_of_mem_loads a.value hload (List.mem_cons_of_mem _ hy))

/-- The names of an indirect expression are names of the statement. -/
theorem idents_of_indirect (hx : x ∈ indirectExprs a)
    (hy : y ∈ x.idents) : y ∈ a.value.idents ∨ y ∈ Expr.identsList a.subs := by
  obtain ⟨ac, hac, hx⟩ := mem_indirectExprs.mp hx
  exact Assign.idents_indexExprs hac (Expr.identsList_of_mem_loadsList ac.indexExprs hx hy)

/-! ## Innermost first -/

/-- Every expression of the list stands behind the array reads in its subscripts. -/
def InnerFirst (l : List Expr) : Prop :=
  ∀ p x q, l = p ++ x :: q → ∀ y ∈ x.innerLoads, y ∈ p

theorem innerFirst_nil : InnerFirst [] := by
  intro p x q h
  simp at h

/-- An expression may be appended once the reads in its subscripts are listed. -/
theorem InnerFirst.concat {l : List Expr} (hl : InnerFirst l)
    (hx : ∀ y ∈ x.innerLoads, y ∈ l) : InnerFirst (l ++ [x]) := by
  intro p z q h y hy
  rcases List.eq_nil_or_concat q with rfl | ⟨q', w, rfl⟩
  · obtain ⟨rfl, hz⟩ := List.append_inj' h rfl
    obtain rfl : x = z := by simpa using hz
    exact hx y hy
  · have h' : l ++ [x] = (p ++ z :: q') ++ [w] := by simpa using h
    exact hl p z q' (List.append_inj' h' rfl).1 y hy

mutual
theorem Expr.innerFirst_visit :
    ∀ (e : Expr) {out : List Expr}, InnerFirst out → InnerFirst (e.visit out)
  | .lit _, _, h => h
  | .var _, _, h => h
  | .load a subs, out, h => by
      have ih := Expr.innerFirst_visitList subs h
      simp only [Expr.visit]
      split_ifs
      · exact ih
      · exact ih.concat (fun y hy => (Expr.mem_visitList subs out).mpr (Or.inr hy))
  | .add a b, _, h => Expr.innerFirst_visit b (Expr.innerFirst_visit a h)
  | .app _ args, _, h => Expr.innerFirst_visitList args h
theorem Expr.innerFirst_visitList :
    ∀ (es : List Expr) {out : List Expr}, InnerFirst out → InnerFirst (Expr.visitList es out)
  | [], _, h => h
  | e :: es, _, h => Expr.innerFirst_visitList es (Expr.innerFirst_visit e h)
end

/-- **`indirect_exprs` lists inner indirections first.** -/
theorem innerFirst_indirectExprs (a : Assign) : InnerFirst (indirectExprs a) := by
  have hgen : ∀ (acs : List AccessInfo) (out : List Expr), InnerFirst out →
      InnerFirst (acs.foldl (fun out ac => Expr.visitList ac.indexExprs out) out) := by
    intro acs
    induction acs with
    | nil => exact fun out h => h
    | cons ac acs ih => exact fun out h => ih _ (Expr.innerFirst_visitList ac.indexExprs h)
  exact hgen a.accesses [] innerFirst_nil

/-! ## The minted symbols -/

/-- Distinct expressions have distinct symbols, all minted from `gid` on. -/
structure IndirectSyms.Fresh (gid : ℕ) (m : IndirectSyms) : Prop where
  keys : (m.map Prod.fst).Nodup
  syms : (m.map Prod.snd).Nodup
  minted : ∀ s ∈ m.map Prod.snd, ∃ p id, s = .minted p id ∧ gid ≤ id ∧ id < gid + m.length

theorem IndirectSyms.Fresh.mint (h : m.Fresh gid) (e : Expr) :
    (m.mint gid e).Fresh gid := by
  unfold IndirectSyms.mint
  split_ifs with he
  · exact h
  · refine ⟨?_, ?_, ?_⟩
    · simpa [List.nodup_append] using ⟨h.keys,
        fun a b hab hae => he (by simpa using ⟨b, hae ▸ hab⟩)⟩
    · simp only [List.map_append, List.map_cons, List.map_nil]
      rw [List.nodup_append]
      refine ⟨h.syms, List.nodup_singleton _, ?_⟩
      intro s hs t ht hst
      obtain ⟨p, id, rfl, -, hlt⟩ := h.minted s hs
      rw [List.mem_singleton] at ht
      rw [ht] at hst
      injection hst with _ hid
      omega
    · intro s hs
      simp only [List.map_append, List.map_cons, List.map_nil, List.mem_append,
        List.mem_singleton, List.length_append, List.length_singleton] at *
      rcases hs with hs | rfl
      · obtain ⟨p, id, rfl, hle, hlt⟩ := h.minted s hs
        exact ⟨p, id, rfl, hle, by omega⟩
      · exact ⟨_, _, rfl, by omega, by omega⟩

/-- Minting symbols for a list: its expressions become keys, no others do. -/
theorem foldl_mint (l : List Expr) (h : m.Fresh gid) :
    (l.foldl (IndirectSyms.mint gid) m).Fresh gid ∧
      ∀ x, x ∈ (l.foldl (IndirectSyms.mint gid) m).map Prod.fst ↔ x ∈ m.map Prod.fst ∨ x ∈ l := by
  induction l generalizing m with
  | nil => exact ⟨h, by simp⟩
  | cons e l ih =>
      obtain ⟨hfresh, hmem⟩ := ih (h.mint e)
      refine ⟨hfresh, fun x => ?_⟩
      have hmint : x ∈ (m.mint gid e).map Prod.fst ↔ x ∈ m.map Prod.fst ∨ x = e := by
        unfold IndirectSyms.mint
        split_ifs with he
        · constructor
          · exact Or.inl
          · rintro (hx | rfl)
            · exact hx
            · exact he
        · simp
      rw [List.foldl_cons, hmem, hmint, List.mem_cons, or_assoc]

theorem fresh_collectIndirect (gid : ℕ) (assigns : List Assign) :
    (collectIndirect gid assigns).Fresh gid :=
  (foldl_mint _ ⟨by simp, by simp, by simp⟩).1

/-- A symbol is minted for every indirect expression of the assignments. -/
theorem mem_keys_collectIndirect {assigns : List Assign} :
    x ∈ (collectIndirect gid assigns).map Prod.fst ↔ ∃ a ∈ assigns, x ∈ indirectExprs a := by
  unfold collectIndirect
  rw [(foldl_mint _ ⟨by simp, by simp, by simp⟩).2]
  simp

/-- Every key of the map has a symbol. -/
theorem exists_lookup (h : x ∈ m.map Prod.fst) :
    ∃ s, m.lookup x = some s := by
  rw [← Option.isSome_iff_exists, List.lookup_isSome_iff]
  obtain ⟨p, hp, rfl⟩ := List.mem_map.mp h
  exact ⟨p, hp, by simp⟩

theorem mintedFrom_of_lookup (hm : m.Fresh gid)
    (h : m.lookup x = some s) : s.MintedFrom gid := by
  obtain ⟨p, id, rfl, hle, -⟩ :=
    hm.minted s (List.mem_map.mpr ⟨(x, s), AssocLists.mem_of_lookup h, rfl⟩)
  exact hle

/-- Two expressions do not share a symbol. -/
theorem lookup_inj (hm : m.Fresh gid) {x y : Expr}
    (hx : m.lookup x = some s) (hy : m.lookup y = some s) : x = y :=
  congrArg Prod.fst
    (List.inj_on_of_nodup_map hm.syms (AssocLists.mem_of_lookup hx)
      (AssocLists.mem_of_lookup hy) rfl)

/-! ## Values of rendered expressions -/

/-- In `τ` the symbols of the given reads hold their values in `σ`. -/
def HoldsSyms (I : Interp) (m : IndirectSyms) (σ τ : Store) (loads : List Expr) : Prop :=
  ∀ x ∈ loads, ∃ s, m.lookup x = some s ∧ τ s [] = x.eval I σ

variable {I : Interp} {m : IndirectSyms} {σ τ : Store}

mutual
/-- Putting symbols for the array reads keeps the value. -/
theorem Expr.eval_lift :
    ∀ e : Expr, HoldsSyms I m σ τ e.loads → (∀ x ∈ e.idents, τ x = σ x) →
      (e.lift m).eval I τ = e.eval I σ
  | .lit n, _, _ => rfl
  | .var x, _, h => congrFun (h x (by simp [Expr.idents])) []
  | .load a subs, hs, _ => by
      obtain ⟨s, hlook, hval⟩ := hs (.load a subs) (by simp [Expr.loads_load])
      simpa [Expr.lift, hlook, Expr.eval] using hval
  | .add a b, hs, h => by
      have ha := Expr.eval_lift a (fun x hx => hs x (by simp [Expr.loads_add, hx]))
        (fun x hx => h x (by simp [Expr.idents, hx]))
      have hb := Expr.eval_lift b (fun x hx => hs x (by simp [Expr.loads_add, hx]))
        (fun x hx => h x (by simp [Expr.idents, hx]))
      simp [Expr.lift, Expr.eval, ha, hb]
  | .app f args, hs, h => by
      have hargs := Expr.evalList_liftList args
        (fun x hx => hs x (by simpa [Expr.loads_app] using hx))
        (fun x hx => h x (by simp [Expr.idents, hx]))
      simp [Expr.lift, Expr.eval, hargs]
theorem Expr.evalList_liftList :
    ∀ es : List Expr, HoldsSyms I m σ τ (Expr.loadsList es) →
      (∀ x ∈ Expr.identsList es, τ x = σ x) →
      Expr.evalList I τ (Expr.liftList m es) = Expr.evalList I σ es
  | [], _, _ => rfl
  | e :: es, hs, h => by
      have he := Expr.eval_lift e (fun x hx => hs x (by simp [Expr.loadsList_cons, hx]))
        (fun x hx => h x (by simp [Expr.identsList, hx]))
      have hes := Expr.evalList_liftList es
        (fun x hx => hs x (by simp [Expr.loadsList_cons, hx]))
        (fun x hx => h x (by simp [Expr.identsList, hx]))
      simp [Expr.liftList, Expr.evalList, he, hes]
end

/-- The right-hand side of a symbol's definition has the value of its expression. -/
theorem eval_indirectToDace (hs : HoldsSyms I m σ τ x.innerLoads)
    (h : ∀ y ∈ x.idents, τ y = σ y) : (indirectToDace m x).eval I τ = x.eval I σ := by
  cases x with
  | load a subs =>
      have hsubs := Expr.evalList_liftList subs hs (fun y hy => h y (by simp [Expr.idents, hy]))
      have ha : τ a = σ a := h a (by simp [Expr.idents])
      simp [indirectToDace, Expr.eval, hsubs, ha]
  | lit n => rfl
  | var y => exact congrFun (h y (by simp [Expr.idents])) []
  | add a b => exact Expr.eval_congr I _ h
  | app f args => exact Expr.eval_congr I _ h

mutual
/-- A tasklet computes the value of its statement. -/
theorem Expr.eval_withMemlets :
    ∀ e : Expr, (∀ ac ∈ e.reads, HoldsSyms I m σ τ (Expr.loadsList ac.indexExprs)) →
      (∀ x ∈ e.idents, τ x = σ x) → (e.withMemlets m).eval I τ = e.eval I σ
  | .lit n, _, _ => rfl
  | .var x, _, h => congrFun (h x (by simp [Expr.idents])) []
  | .load a subs, hs, h => by
      have hsubs := Expr.evalList_liftList subs (hs ⟨a, false, subs⟩ (by simp [Expr.reads]))
        (fun x hx => h x (by simp [Expr.idents, hx]))
      have ha : τ a = σ a := h a (by simp [Expr.idents])
      simp [Expr.withMemlets, Expr.eval, hsubs, ha]
  | .add a b, hs, h => by
      have ha := Expr.eval_withMemlets a (fun ac hac => hs ac (by simp [Expr.reads, hac]))
        (fun x hx => h x (by simp [Expr.idents, hx]))
      have hb := Expr.eval_withMemlets b (fun ac hac => hs ac (by simp [Expr.reads, hac]))
        (fun x hx => h x (by simp [Expr.idents, hx]))
      simp [Expr.withMemlets, Expr.eval, ha, hb]
  | .app f args, hs, h => by
      have hargs := Expr.evalList_withMemletsList args
        (fun ac hac => hs ac (by simpa [Expr.reads] using hac))
        (fun x hx => h x (by simp [Expr.idents, hx]))
      simp [Expr.withMemlets, Expr.eval, hargs]
theorem Expr.evalList_withMemletsList :
    ∀ es : List Expr,
      (∀ ac ∈ Expr.readsList es, HoldsSyms I m σ τ (Expr.loadsList ac.indexExprs)) →
      (∀ x ∈ Expr.identsList es, τ x = σ x) →
      Expr.evalList I τ (Expr.withMemletsList m es) = Expr.evalList I σ es
  | [], _, _ => rfl
  | e :: es, hs, h => by
      have he := Expr.eval_withMemlets e (fun ac hac => hs ac (by simp [Expr.readsList, hac]))
        (fun x hx => h x (by simp [Expr.identsList, hx]))
      have hes := Expr.evalList_withMemletsList es
        (fun ac hac => hs ac (by simp [Expr.readsList, hac]))
        (fun x hx => h x (by simp [Expr.identsList, hx]))
      simp [Expr.withMemletsList, Expr.evalList, he, hes]
end

/-! ## Names of rendered expressions -/

/-- All of the reads have symbols. -/
def HasSyms (m : IndirectSyms) (loads : List Expr) : Prop :=
  ∀ x ∈ loads, ∃ s, m.lookup x = some s

mutual
/-- A lifted expression names its atoms and minted symbols only. -/
theorem Expr.mem_idents_lift {x : Name} :
    ∀ e : Expr, HasSyms m e.loads → x ∈ (e.lift m).idents →
      x ∈ e.atoms ∨ ∃ y, m.lookup y = some x
  | .lit n, _, hx => by simp [Expr.lift, Expr.idents] at hx
  | .var y, _, hx => Or.inl (by simpa [Expr.lift, Expr.idents, Expr.atoms] using hx)
  | .load a subs, hs, hx => by
      obtain ⟨s, hlook⟩ := hs (.load a subs) (by simp [Expr.loads_load])
      have hxs : x = s := by simpa [Expr.lift, hlook, Expr.idents] using hx
      exact Or.inr ⟨_, hxs ▸ hlook⟩
  | .add a b, hs, hx => by
      simp only [Expr.lift, Expr.idents, List.mem_append, Expr.atoms] at *
      rcases hx with hx | hx
      · rcases Expr.mem_idents_lift a (fun y hy => hs y (by simp [Expr.loads_add, hy])) hx
          with h | h
        · exact Or.inl (Or.inl h)
        · exact Or.inr h
      · rcases Expr.mem_idents_lift b (fun y hy => hs y (by simp [Expr.loads_add, hy])) hx
          with h | h
        · exact Or.inl (Or.inr h)
        · exact Or.inr h
  | .app f args, hs, hx => by
      simp only [Expr.lift, Expr.idents, List.mem_cons, Expr.atoms] at *
      rcases hx with rfl | hx
      · exact Or.inl (Or.inl rfl)
      · rcases Expr.mem_identsList_liftList args
          (fun y hy => hs y (by simpa [Expr.loads_app] using hy)) hx with h | h
        · exact Or.inl (Or.inr h)
        · exact Or.inr h
theorem Expr.mem_identsList_liftList {x : Name} :
    ∀ es : List Expr, HasSyms m (Expr.loadsList es) → x ∈ Expr.identsList (Expr.liftList m es) →
      x ∈ Expr.atomsList es ∨ ∃ y, m.lookup y = some x
  | [], _, hx => by simp [Expr.liftList, Expr.identsList] at hx
  | e :: es, hs, hx => by
      simp only [Expr.liftList, Expr.identsList, List.mem_append, Expr.atomsList] at *
      rcases hx with hx | hx
      · rcases Expr.mem_idents_lift e (fun y hy => hs y (by simp [Expr.loadsList_cons, hy])) hx
          with h | h
        · exact Or.inl (Or.inl h)
        · exact Or.inr h
      · rcases Expr.mem_identsList_liftList es
          (fun y hy => hs y (by simp [Expr.loadsList_cons, hy])) hx with h | h
        · exact Or.inl (Or.inr h)
        · exact Or.inr h
end

mutual
/-- A tasklet names its tokens, the atoms of its subscripts and minted symbols. -/
theorem Expr.mem_idents_withMemlets {x : Name} :
    ∀ e : Expr, (∀ ac ∈ e.reads, HasSyms m (Expr.loadsList ac.indexExprs)) →
      x ∈ (e.withMemlets m).idents →
      x ∈ e.tokens ∨ (∃ ac ∈ e.reads, x ∈ Expr.atomsList ac.indexExprs) ∨
        ∃ y, m.lookup y = some x
  | .lit n, _, hx => by simp [Expr.withMemlets, Expr.idents] at hx
  | .var y, _, hx => Or.inl (by simpa [Expr.withMemlets, Expr.idents, Expr.tokens] using hx)
  | .load a subs, hs, hx => by
      simp only [Expr.withMemlets, Expr.idents, List.mem_cons] at hx
      rcases hx with rfl | hx
      · exact Or.inl (by simp [Expr.tokens])
      · rcases Expr.mem_identsList_liftList subs (hs ⟨a, false, subs⟩ (by simp [Expr.reads])) hx
          with h | h
        · exact Or.inr (Or.inl ⟨⟨a, false, subs⟩, by simp [Expr.reads], h⟩)
        · exact Or.inr (Or.inr h)
  | .add a b, hs, hx => by
      simp only [Expr.withMemlets, Expr.idents, List.mem_append, Expr.tokens, Expr.reads] at *
      rcases hx with hx | hx
      · rcases Expr.mem_idents_withMemlets a (fun ac hac => hs ac (Or.inl hac)) hx with
          h | ⟨ac, hac, h⟩ | h
        · exact Or.inl (Or.inl h)
        · exact Or.inr (Or.inl ⟨ac, Or.inl hac, h⟩)
        · exact Or.inr (Or.inr h)
      · rcases Expr.mem_idents_withMemlets b (fun ac hac => hs ac (Or.inr hac)) hx with
          h | ⟨ac, hac, h⟩ | h
        · exact Or.inl (Or.inr h)
        · exact Or.inr (Or.inl ⟨ac, Or.inr hac, h⟩)
        · exact Or.inr (Or.inr h)
  | .app f args, hs, hx => by
      simp only [Expr.withMemlets, Expr.idents, List.mem_cons, Expr.tokens, Expr.reads] at *
      rcases hx with rfl | hx
      · exact Or.inl (Or.inl rfl)
      · rcases Expr.mem_identsList_withMemletsList args hs hx with h | h | h
        · exact Or.inl (Or.inr h)
        · exact Or.inr (Or.inl h)
        · exact Or.inr (Or.inr h)
theorem Expr.mem_identsList_withMemletsList {x : Name} :
    ∀ es : List Expr, (∀ ac ∈ Expr.readsList es, HasSyms m (Expr.loadsList ac.indexExprs)) →
      x ∈ Expr.identsList (Expr.withMemletsList m es) →
      x ∈ Expr.tokensList es ∨ (∃ ac ∈ Expr.readsList es, x ∈ Expr.atomsList ac.indexExprs) ∨
        ∃ y, m.lookup y = some x
  | [], _, hx => by simp [Expr.withMemletsList, Expr.identsList] at hx
  | e :: es, hs, hx => by
      simp only [Expr.withMemletsList, Expr.identsList, List.mem_append, Expr.tokensList,
        Expr.readsList] at *
      rcases hx with hx | hx
      · rcases Expr.mem_idents_withMemlets e (fun ac hac => hs ac (Or.inl hac)) hx with
          h | ⟨ac, hac, h⟩ | h
        · exact Or.inl (Or.inl h)
        · exact Or.inr (Or.inl ⟨ac, Or.inl hac, h⟩)
        · exact Or.inr (Or.inr h)
      · rcases Expr.mem_identsList_withMemletsList es (fun ac hac => hs ac (Or.inr hac)) hx with
          h | ⟨ac, hac, h⟩ | h
        · exact Or.inl (Or.inr h)
        · exact Or.inr (Or.inl ⟨ac, Or.inr hac, h⟩)
        · exact Or.inr (Or.inr h)
end

/-! ## Reads of a flat value -/

mutual
/-- The walk gives every read of a flat expression its own subscripts back. -/
theorem Expr.renderReads_flat :
    ∀ (e : Expr) (rest : List AccessInfo), e.Flat → e.renderReads (e.reads ++ rest) = (e, rest)
  | .lit n, rest, _ => by simp [Expr.renderReads, Expr.reads]
  | .var x, rest, _ => by simp [Expr.renderReads, Expr.reads]
  | .load a subs, rest, h => by
      have hsubs : Expr.readsList subs = [] := by
        simpa [Expr.loadsList] using h ⟨a, false, subs⟩ (by simp [Expr.reads])
      simp [Expr.renderReads, Expr.reads, hsubs]
  | .add a b, rest, h => by
      have ha := Expr.renderReads_flat a (b.reads ++ rest)
        (fun ac hac => h ac (by simp [Expr.reads, hac]))
      have hb := Expr.renderReads_flat b rest (fun ac hac => h ac (by simp [Expr.reads, hac]))
      simp [Expr.renderReads, Expr.reads, ha, hb]
  | .app f args, rest, h => by
      have hargs := Expr.renderReadsList_flat args rest
        (fun ac hac => h ac (by simpa [Expr.reads] using hac))
      simp [Expr.renderReads, Expr.reads, hargs]
theorem Expr.renderReadsList_flat :
    ∀ (es : List Expr) (rest : List AccessInfo),
      (∀ ac ∈ Expr.readsList es, Expr.loadsList ac.indexExprs = []) →
      Expr.renderReadsList es (Expr.readsList es ++ rest) = (es, rest)
  | [], rest, _ => by simp [Expr.renderReadsList, Expr.readsList]
  | e :: es, rest, h => by
      have he := Expr.renderReads_flat e (Expr.readsList es ++ rest)
        (fun ac hac => h ac (by simp [Expr.readsList, hac]))
      have hes := Expr.renderReadsList_flat es rest
        (fun ac hac => h ac (by simp [Expr.readsList, hac]))
      simp [Expr.renderReadsList, Expr.readsList, he, hes]
end

mutual
theorem Expr.isWrite_of_mem_reads {ac : AccessInfo} :
    ∀ e : Expr, ac ∈ e.reads → ac.isWrite = false
  | .lit _, h => by simp [Expr.reads] at h
  | .var _, h => by simp [Expr.reads] at h
  | .load a subs, h => by
      simp only [Expr.reads, List.mem_append, List.mem_singleton] at h
      rcases h with h | rfl
      · exact Expr.isWrite_of_mem_readsList subs h
      · rfl
  | .add a b, h => by
      simp only [Expr.reads, List.mem_append] at h
      rcases h with h | h
      · exact Expr.isWrite_of_mem_reads a h
      · exact Expr.isWrite_of_mem_reads b h
  | .app _ args, h => Expr.isWrite_of_mem_readsList args (by simpa [Expr.reads] using h)
theorem Expr.isWrite_of_mem_readsList {ac : AccessInfo} :
    ∀ es : List Expr, ac ∈ Expr.readsList es → ac.isWrite = false
  | [], h => by simp [Expr.readsList] at h
  | e :: es, h => by
      simp only [Expr.readsList, List.mem_append] at h
      rcases h with h | h
      · exact Expr.isWrite_of_mem_reads e h
      · exact Expr.isWrite_of_mem_readsList es h
end

/-- The read accesses of an assignment are the reads of its value. -/
theorem Assign.filter_accesses (a : Assign) :
    a.accesses.filter (fun ac => !ac.isWrite) = a.value.reads := by
  have hreads : a.value.reads.filter (fun ac => !ac.isWrite) = a.value.reads :=
    List.filter_eq_self.mpr (fun ac hac => by simp [Expr.isWrite_of_mem_reads a.value hac])
  unfold Assign.accesses
  split_ifs <;> simp [hreads]

/-- **A flat value is rendered as it stands.** -/
theorem arrayReadToDaceExpr_flat (h : a.value.Flat) :
    arrayReadToDaceExpr a = a.value := by
  have hflat := Expr.renderReads_flat a.value [] h
  rw [List.append_nil] at hflat
  rw [arrayReadToDaceExpr, Assign.filter_accesses, hflat]
