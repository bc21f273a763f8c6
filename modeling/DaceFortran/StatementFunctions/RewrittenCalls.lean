/-
# The calls after the rewriting

Rewriting the calls of one function after another is one walk that takes each function out of the
table for the arguments of its calls.  The carried-over variables of a function are those that its
expression reads, also over the functions that it calls.
-/
import DaceFortran.Lib.AssocLists
import DaceFortran.StatementFunctions.LiftFunctions

open List

namespace StatementFunctions

variable {Name Op : Type}

/-! ## Lists of arguments -/

/-- Induction on expressions, with all arguments at once. -/
theorem Expr.induct {P : Expr Name Op → Prop} (var : ∀ x, P (.var x))
    (op : ∀ o args, (∀ a ∈ args, P a) → P (.op o args))
    (ref : ∀ f args, (∀ a ∈ args, P a) → P (.ref f args)) (e : Expr Name Op) : P e :=
  @Expr.rec Name Op P (fun args => ∀ a ∈ args, P a) var op ref (fun _ h => absurd h not_mem_nil)
    (fun _ _ ha hargs b hb => (mem_cons.1 hb).elim (fun h => h ▸ ha) (hargs b)) e

theorem namesArgs_eq (args : List (Expr Name Op)) :
    Expr.namesArgs args = args.flatMap Expr.names := by
  induction args with
  | nil => rfl
  | cons a args ih => rw [Expr.namesArgs, ih, flatMap_cons]

theorem callsArgs_eq (args : List (Expr Name Op)) :
    Expr.callsArgs args = args.flatMap Expr.calls := by
  induction args with
  | nil => rfl
  | cons a args ih => rw [Expr.callsArgs, ih, flatMap_cons]

variable {x : Name} {f : Name} {args : List (Expr Name Op)}

variable (e : Expr Name Op)

/-- A called name is a name of the expression. -/
theorem mem_names_of_mem_calls (h : x ∈ e.calls) : x ∈ e.names := by
  induction e using Expr.induct with
  | var y => exact absurd h not_mem_nil
  | op o args ih =>
    rw [Expr.calls, callsArgs_eq, mem_flatMap] at h
    obtain ⟨a, ha, hx⟩ := h
    rw [Expr.names, namesArgs_eq, mem_flatMap]
    exact ⟨a, ha, ih a ha hx⟩
  | ref f args ih =>
    rw [Expr.calls, callsArgs_eq, mem_cons, mem_flatMap] at h
    rw [Expr.names, namesArgs_eq, mem_cons, mem_flatMap]
    rcases h with rfl | ⟨a, ha, hx⟩
    · exact .inl rfl
    · exact .inr ⟨a, ha, ih a ha hx⟩

section

variable {isFn : Name → Bool} {p : List Name → Name → List (Expr Name Op) → Prop}

variable {enclosing : List Name}

theorem allCallsArgs_iff {args : List (Expr Name Op)} :
    AllCallsArgs isFn p enclosing args ↔ ∀ a ∈ args, AllCalls isFn p enclosing a := by
  induction args with
  | nil => simp [AllCallsArgs]
  | cons a args ih => rw [AllCallsArgs, ih, forall_mem_cons]

theorem allCallsArgs_vars (enclosing : List Name) (xs : List Name) :
    AllCallsArgs isFn p enclosing (xs.map .var : List (Expr Name Op)) := by
  rw [allCallsArgs_iff]
  intro a ha
  obtain ⟨x, -, rfl⟩ := mem_map.1 ha
  trivial

theorem allCallsArgs_append {args args' : List (Expr Name Op)} :
    AllCallsArgs isFn p enclosing (args ++ args') ↔
      AllCallsArgs isFn p enclosing args ∧ AllCallsArgs isFn p enclosing args' := by
  rw [allCallsArgs_iff, allCallsArgs_iff, allCallsArgs_iff, forall_mem_append]

/-- A property of calls on the names that are called. -/
theorem allCalls_congr {isFn' : Name → Bool} {p' : List Name → Name → List (Expr Name Op) → Prop}
    (e : Expr Name Op) :
    ∀ {enclosing}, (∀ f ∈ e.calls, isFn f = isFn' f) →
      (∀ E f args, isFn f → (p E f args ↔ p' E f args)) →
      (AllCalls isFn p enclosing e ↔ AllCalls isFn' p' enclosing e) := by
  induction e using Expr.induct with
  | var x => exact fun _ _ => Iff.rfl
  | op o args ih =>
    intro E h hp
    rw [AllCalls, AllCalls, allCallsArgs_iff, allCallsArgs_iff]
    refine forall₂_congr fun a ha => ih a ha (fun f hf => h f ?_) hp
    rw [Expr.calls, callsArgs_eq]
    exact mem_flatMap.2 ⟨a, ha, hf⟩
  | ref g args ih =>
    intro E h hp
    have hargs : ∀ E, AllCallsArgs isFn p E args ↔ AllCallsArgs isFn' p' E args := by
      intro E
      rw [allCallsArgs_iff, allCallsArgs_iff]
      refine forall₂_congr fun a ha => ih a ha (fun f hf => h f ?_) hp
      rw [Expr.calls, callsArgs_eq]
      exact mem_cons_of_mem g (mem_flatMap.2 ⟨a, ha, hf⟩)
    have hg : isFn g = isFn' g := h g (by rw [Expr.calls]; exact mem_cons_self)
    rw [AllCalls, AllCalls, hargs, hargs, ← hg]
    by_cases hfn : isFn g
    · rw [if_pos hfn, if_pos hfn, hp E g args hfn]
    · rw [if_neg hfn, if_neg hfn]

end

variable [DecidableEq Name]

variable {cs : List Name} {locals : List Name} {T : Name → Option (List Name)}

theorem rewriteCallsArgs_eq (args : List (Expr Name Op)) :
    rewriteCallsArgs locals f cs args = args.map (rewriteCalls locals f cs) := by
  induction args with
  | nil => rfl
  | cons a args ih => rw [rewriteCallsArgs, ih, map_cons]

/-! ## One walk -/

/-- A table of functions without one of them. -/
def without (T : Name → Option (List Name)) (f : Name) : Name → Option (List Name) := fun g =>
  if g = f then none else T g

/-- A table of functions with one more. -/
def insert (T : Name → Option (List Name)) (f : Name) (cs : List Name) : Name →
    Option (List Name) := fun g =>
  if g = f then some cs else T g

mutual

/-- The walk for all functions of a table at once. -/
def carryAll (T : Name → Option (List Name)) : Expr Name Op → Expr Name Op
  | .var x => .var x
  | .op o args => .op o (carryAllArgs T args)
  | .ref f args => match T f with
    | some cs => .ref f (carryAllArgs (without T f) args ++ cs.map .var)
    | none => .ref f (carryAllArgs T args)

def carryAllArgs (T : Name → Option (List Name)) : List (Expr Name Op) → List (Expr Name Op)
  | [] => []
  | a :: args => carryAll T a :: carryAllArgs T args

end

theorem carryAllArgs_eq (args : List (Expr Name Op)) :
    carryAllArgs T args = args.map (carryAll T) := by
  induction args with
  | nil => rfl
  | cons a args ih => rw [carryAllArgs, ih, map_cons]

theorem without_insert_ne {f g : Name} (h : g ≠ f) :
    without (insert T f cs) g = insert (without T g) f cs := by
  funext x
  unfold without insert
  by_cases hx : x = g
  · simp only [if_pos hx, if_neg (hx ▸ h)]
  · simp only [if_neg hx]

theorem without_insert_self (h : T f = none) :
    without (insert T f cs) f = T := by
  funext x
  unfold without insert
  by_cases hx : x = f
  · rw [if_pos hx, hx, h]
  · rw [if_neg hx, if_neg hx]

omit [DecidableEq Name] in
/-- A walk without functions. -/
theorem carryAll_none [DecidableEq Name]
    (h : ∀ f ∈ e.calls, T f = none) : carryAll T e = e := by
  induction e using Expr.induct with
  | var x => rfl
  | op o args ih =>
    rw [Expr.calls, callsArgs_eq] at h
    rw [carryAll, carryAllArgs_eq, map_congr_left (g := id), map_id]
    exact fun a ha => ih a ha fun f hf => h f (mem_flatMap.2 ⟨a, ha, hf⟩)
  | ref g args ih =>
    rw [Expr.calls, callsArgs_eq] at h
    simp only [carryAll, h g mem_cons_self]
    rw [carryAllArgs_eq, map_congr_left (g := id), map_id]
    exact fun a ha => ih a ha fun f hf => h f (mem_cons_of_mem g (mem_flatMap.2 ⟨a, ha, hf⟩))

/-- **One function more**: its calls first, then the others. -/
theorem carryAll_rewriteCalls (hf : f ∉ locals) (e : Expr Name Op) :
    ∀ {T : Name → Option (List Name)}, T f = none →
      carryAll T (rewriteCalls locals f cs e) = carryAll (insert T f cs) e := by
  induction e using Expr.induct with
  | var x => exact fun _ => rfl
  | op o args ih =>
    intro T hT
    rw [rewriteCalls, carryAll, carryAll, rewriteCallsArgs_eq, carryAllArgs_eq,
      carryAllArgs_eq, map_map]
    exact congrArg _ (map_congr_left fun a ha => ih a ha hT)
  | ref g args ih =>
    intro T hT
    rw [rewriteCalls]
    by_cases hg : g = f
    · subst hg
      have hins : insert T g cs g = some cs := if_pos rfl
      rw [if_pos ⟨rfl, hf⟩]
      simp only [carryAll, hT, hins]
      rw [without_insert_self hT, carryAllArgs_eq, carryAllArgs_eq, map_append]
      exact congrArg (fun vars => Expr.ref g (args.map (carryAll T) ++ vars)) (by rw [map_map]; rfl)
    · have hins : insert T f cs g = T g := if_neg hg
      have hargs : ∀ {T' : Name → Option (List Name)}, T' f = none →
          carryAllArgs T' (rewriteCallsArgs locals f cs args) =
            carryAllArgs (insert T' f cs) args := by
        intro T' hT'
        rw [rewriteCallsArgs_eq, carryAllArgs_eq, carryAllArgs_eq, map_map]
        exact map_congr_left fun a ha => ih a ha hT'
      rw [if_neg fun h => hg h.1]
      simp only [carryAll, hins]
      cases hTg : T g with
      | none => simp only [hargs hT]
      | some ds =>
        simp only
        have hwithout : without T g f = none := by unfold without; rw [hT, ite_self]
        rw [hargs hwithout, without_insert_ne hg]

/-- Where the name is declared anew nothing is rewritten. -/
theorem rewriteCalls_hidden (hf : f ∈ locals) (e : Expr Name Op) :
    rewriteCalls locals f cs e = e := by
  induction e using Expr.induct with
  | var x => rfl
  | op o args ih =>
    rw [rewriteCalls, rewriteCallsArgs_eq, map_congr_left (g := id), map_id]
    exact ih
  | ref g args ih =>
    rw [rewriteCalls, if_neg fun h => h.2 (h.1 ▸ hf), rewriteCallsArgs_eq,
      map_congr_left (g := id), map_id]
    exact ih

/-- The functions of a table where some names are declared anew. -/
def lookupOutside (locals : List Name) (table : Table Name) (f : Name) : Option (List Name) :=
  if f ∈ locals then none else table.lookup f

/-- **The rewriting is one walk.** -/
theorem rewriteAll_eq {table : Table Name} (hnodup : (table.map Prod.fst).Nodup)
    (e : Expr Name Op) : rewriteAll locals table e = carryAll (lookupOutside locals table) e := by
  induction table generalizing e with
  | nil => exact (carryAll_none e fun f _ => ite_self _).symm
  | cons fc table ih =>
    obtain ⟨f, cs⟩ := fc
    rw [map_cons, nodup_cons] at hnodup
    have hstep : rewriteAll locals ((f, cs) :: table) e =
      rewriteAll locals table (rewriteCalls locals f cs e) := rfl
    rw [hstep, ih hnodup.2]
    have hlookup : table.lookup f = none := AssocLists.lookup_eq_none.2 hnodup.1
    by_cases hf : f ∈ locals
    · rw [rewriteCalls_hidden hf]
      congr 1
      funext g
      unfold lookupOutside
      by_cases hg : g ∈ locals
      · rw [if_pos hg, if_pos hg]
      · rw [if_neg hg, if_neg hg, lookup_cons,
          beq_false_of_ne (a := g) (b := f) fun h => hg (h ▸ hf)]
    · rw [carryAll_rewriteCalls hf e (by unfold lookupOutside; rw [hlookup, ite_self])]
      congr 1
      funext g
      unfold insert lookupOutside
      by_cases hg : g = f
      · rw [if_pos hg, hg, if_neg hf, lookup_cons, beq_self_eq_true]
      · rw [if_neg hg, lookup_cons, beq_false_of_ne hg]

/-! ## The names of a rewritten expression -/

omit [DecidableEq Name] in
theorem mem_names_args :
    x ∈ Expr.namesArgs args ↔ ∃ a ∈ args, x ∈ a.names := by
  rw [namesArgs_eq, mem_flatMap]

omit [DecidableEq Name] in
theorem mem_calls_args :
    x ∈ Expr.callsArgs args ↔ ∃ a ∈ args, x ∈ a.calls := by
  rw [callsArgs_eq, mem_flatMap]

/-- The names after the walk: those of before, and the variables of the functions that are
called. -/
theorem mem_names_carryAll : ∀ {T : Name → Option (List Name)},
    x ∈ (carryAll T e).names ↔ x ∈ e.names ∨ ∃ f ∈ e.calls, ∃ cs, T f = some cs ∧ x ∈ cs := by
  have hlist : ∀ {args : List (Expr Name Op)} {T : Name → Option (List Name)}, (∀ a ∈ args,
      (x ∈ (carryAll T a).names ↔ x ∈ a.names ∨ ∃ f ∈ a.calls, ∃ cs, T f = some cs ∧ x ∈ cs)) →
      (x ∈ Expr.namesArgs (carryAllArgs T args) ↔
        x ∈ Expr.namesArgs args ∨ ∃ f ∈ Expr.callsArgs args, ∃ cs, T f = some cs ∧ x ∈ cs) := by
    intro args T h
    rw [mem_names_args, mem_names_args, carryAllArgs_eq]
    simp only [mem_map, exists_exists_and_eq_and, mem_calls_args]
    constructor
    · rintro ⟨a, ha, hx⟩
      rcases (h a ha).1 hx with hx | ⟨f, hf, hcs⟩
      · exact .inl ⟨a, ha, hx⟩
      · exact .inr ⟨f, ⟨a, ha, hf⟩, hcs⟩
    · rintro (⟨a, ha, hx⟩ | ⟨f, ⟨a, ha, hf⟩, hcs⟩)
      · exact ⟨a, ha, (h a ha).2 (.inl hx)⟩
      · exact ⟨a, ha, (h a ha).2 (.inr ⟨f, hf, hcs⟩)⟩
  induction e using Expr.induct with
  | var y => simp [carryAll, Expr.names, Expr.calls]
  | op o args ih =>
    intro T
    rw [carryAll, Expr.names, Expr.names, Expr.calls]
    exact hlist fun a ha => ih a ha
  | ref g args ih =>
    intro T
    have hargs : ∀ {T' : Name → Option (List Name)}, x ∈ Expr.namesArgs (carryAllArgs T' args) ↔
        x ∈ Expr.namesArgs args ∨ ∃ f ∈ Expr.callsArgs args, ∃ cs, T' f = some cs ∧ x ∈ cs :=
      hlist fun a ha => ih a ha
    rw [Expr.names, Expr.calls]
    -- what `g` carries is appended here, so inside its arguments `g` carries nothing
    cases hT : T g with
    | none =>
      simp only [carryAll, hT]
      rw [Expr.names, mem_cons, hargs, mem_cons]
      constructor
      · rintro (hx | hx | ⟨f, hf, hcs⟩)
        · exact .inl (.inl hx)
        · exact .inl (.inr hx)
        · exact .inr ⟨f, mem_cons_of_mem g hf, hcs⟩
      · rintro ((hx | hx) | ⟨f, hf, cs, hcs, hx⟩)
        · exact .inl hx
        · exact .inr (.inl hx)
        · rcases mem_cons.1 hf with rfl | hf
          · exact absurd (hT.symm.trans hcs) (by simp)
          · exact .inr (.inr ⟨f, hf, cs, hcs, hx⟩)
    | some ds =>
      have hvars : x ∈ Expr.namesArgs (carryAllArgs (without T g) args ++ ds.map .var) ↔
          x ∈ Expr.namesArgs (carryAllArgs (without T g) args) ∨ x ∈ ds := by
        rw [mem_names_args, mem_names_args]
        simp only [mem_append, mem_map]
        constructor
        · rintro ⟨a, ha | ⟨y, hy, rfl⟩, hx⟩
          · exact .inl ⟨a, ha, hx⟩
          · rw [Expr.names, mem_singleton] at hx
            exact .inr (hx ▸ hy)
        · rintro (⟨a, ha, hx⟩ | hx)
          · exact ⟨a, .inl ha, hx⟩
          · exact ⟨.var x, .inr ⟨x, hx, rfl⟩, by simp [Expr.names]⟩
      simp only [carryAll, hT]
      rw [Expr.names, mem_cons, hvars, hargs, mem_cons]
      constructor
      · rintro (hx | (hx | ⟨f, hf, cs, hcs, hx⟩) | hx)
        · exact .inl (.inl hx)
        · exact .inl (.inr hx)
        · refine .inr ⟨f, mem_cons_of_mem g hf, cs, ?_, hx⟩
          unfold without at hcs
          split at hcs
          · exact absurd hcs (by simp)
          · exact hcs
        · exact .inr ⟨g, mem_cons_self, ds, hT, hx⟩
      · rintro ((hx | hx) | ⟨f, hf, cs, hcs, hx⟩)
        · exact .inl hx
        · exact .inr (.inl (.inl hx))
        · by_cases hfg : f = g
          · subst hfg
            rw [hT, Option.some.injEq] at hcs
            exact .inr (.inr (hcs ▸ hx))
          · refine .inr (.inl (.inr ⟨f, (mem_cons.1 hf).resolve_left hfg, cs, ?_, hx⟩))
            rw [without, if_neg hfg]
            exact hcs

/-! ## The variables that are carried over -/

namespace Scope

variable {S : Scope Name Op}

/-- **What a function reads**: a variable of the scope in its expression or read by a function that
it calls, but for its dummy arguments. -/
inductive Reads (S : Scope Name Op) : StmtFn Name Op → Name → Prop where
  | own (f : StmtFn Name Op) (x : Name) : x ∈ f.body.names → S.carried x →
      x ∉ f.dummies → Reads S f x
  | call (f g : StmtFn Name Op) (x : Name) : g ∈ S.fns → g.name ∈ f.body.calls →
      Reads S g x → x ∉ f.dummies →
      Reads S f x

/-- The scope is Fortran's: functions have different names and are declared, a dummy argument is no
function, and an expression has only functions that are defined before, as calls with their numbers
of arguments. -/
structure Valid (S : Scope Name Op) : Prop where
  nodup : (S.fns.map StmtFn.name).Nodup
  declared : ∀ f ∈ S.fns, ∃ d, S.decls f.name = some d ∧ d.const = false ∧ d.fixed = false
  dummies : ∀ f ∈ S.fns, ∀ x ∈ f.dummies, S.isFn x = false
  earlier : ∀ pre f post, S.fns = pre ++ f :: post → ∀ g ∈ f :: post, g.name ∉ f.body.names
  arity : ∀ f ∈ S.fns, AllCalls S.isFn (fun _ g args => ∀ h ∈ S.fns, h.name = g →
    args.length = h.dummies.length) []
    f.body
  aritySites : ∀ s ∈ S.sites, ∀ e ∈ s.exprs, AllCalls (S.callable s.locals)
    (fun _ g args => ∀ h ∈ S.fns, h.name = g → args.length = h.dummies.length) [] e

variable {f : StmtFn Name Op} {x : Name}

theorem carried_of_reads (h : S.Reads f x) : S.carried x := by
  induction h with
  | own f x _ hx _ => exact hx
  | call f g x _ _ _ _ ih => exact ih

theorem notMem_dummies_of_reads (h : S.Reads f x) : x ∉ f.dummies := by
  cases h with
  | own _ _ _ _ hx => exact hx
  | call _ g _ _ _ _ hx => exact hx

theorem mem_carryovers {dummies : List Name} {e : Expr Name Op} :
    x ∈ S.carryovers dummies e ↔ x ∈ e.names ∧ x ∉ dummies ∧ S.carried x := by
  have hfold : ∀ (names cs : List Name),
      x ∈ names.foldl (fun cs x => if x ∉ dummies ∧ S.carried x ∧
        x ∉ cs then cs ++ [x] else cs) cs ↔
        x ∈ cs ∨ x ∈ names ∧ x ∉ dummies ∧ S.carried x := by
    intro names
    induction names with
    | nil => simp
    | cons y names ih =>
      intro cs
      rw [foldl_cons, ih]
      split
      · rename_i hy
        rw [mem_append, mem_singleton, mem_cons]
        constructor
        · rintro ((hx | rfl) | hx)
          · exact .inl hx
          · exact .inr ⟨.inl rfl, hy.1, hy.2.1⟩
          · exact .inr ⟨.inr hx.1, hx.2⟩
        · rintro (hx | ⟨rfl | hx, hrest⟩)
          · exact .inl (.inl hx)
          · exact .inl (.inr rfl)
          · exact .inr ⟨hx, hrest⟩
      · rename_i hy
        rw [mem_cons]
        constructor
        · rintro (hx | hx)
          · exact .inl hx
          · exact .inr ⟨.inr hx.1, hx.2⟩
        · rintro (hx | ⟨rfl | hx, hrest⟩)
          · exact .inl hx
          · refine .inl (Classical.byContradiction fun hcs => hy ⟨hrest.1, hrest.2, hcs⟩)
          · exact .inr ⟨hx, hrest⟩
  rw [carryovers, hfold]
  simp

theorem eq_of_name (hv : S.Valid) {f g : StmtFn Name Op} (hf : f ∈ S.fns) (hg : g ∈ S.fns)
    (h : f.name = g.name) :
    f = g :=
  inj_on_of_nodup_map hv.nodup hf hg h

theorem isFn_iff : S.isFn x = true ↔ ∃ f ∈ S.fns, f.name = x := by
  simp [isFn]

/-- A table has the functions of a list with what they read. -/
structure Lists (S : Scope Name Op) (fs : List (StmtFn Name Op)) (table : Table Name) : Prop where
  names : table.map Prod.fst = fs.map StmtFn.name
  reads : ∀ fc ∈ table, ∃ f ∈ fs, f.name = fc.1 ∧ ∀ x, x ∈ fc.2 ↔ S.Reads f x

/-- **The loop gives what the functions read.** -/
theorem lists_liftLoop (hv : S.Valid) {fs : List (StmtFn Name Op)} : ∀ {pre : List (StmtFn Name Op)}
    {done : Table Name}, S.fns = pre ++ fs → S.Lists pre done →
      S.Lists S.fns (S.liftLoop done fs) := by
  induction fs with
  | nil =>
    intro pre done hfns hdone
    rw [append_nil] at hfns
    exact hfns ▸ hdone
  | cons f fs ih =>
    intro pre done hfns hdone
    have hfmem : f ∈ S.fns := hfns ▸ mem_append_right pre mem_cons_self
    have hnodup : (done.map Prod.fst).Nodup := by
      rw [hdone.names]
      have hall := hv.nodup
      rw [hfns, map_append] at hall
      exact hall.of_append_left
    have happ : S.fns = (pre ++ [f]) ++ fs := by rw [hfns, append_assoc]; rfl
    refine ih happ ⟨?_, ?_⟩
    · rw [map_append, map_append, hdone.names]
      rfl
    · intro fc hfc
      rcases mem_append.1 hfc with hfc | hfc
      · obtain ⟨g, hg, hname, hreads⟩ := hdone.reads fc hfc
        exact ⟨g, mem_append_left _ hg, hname, hreads⟩
      · obtain rfl := mem_singleton.1 hfc
        refine ⟨f, mem_append_right _ mem_cons_self, rfl, fun x => ?_⟩
        rw [mem_carryovers, rewriteAll_eq hnodup, mem_names_carryAll]
        constructor
        · rintro ⟨hx | ⟨g, hg, cs, hcs, hx⟩, hdummy, hcarried⟩
          · exact .own f x hx hcarried hdummy
          · rw [lookupOutside, if_neg not_mem_nil] at hcs
            obtain ⟨g', hg', rfl, hreads⟩ := hdone.reads (g, cs) (AssocLists.mem_of_lookup hcs)
            exact .call f g' x (hfns ▸ mem_append_left _ hg') hg ((hreads x).1 hx) hdummy
        · intro hreads
          refine ⟨?_, notMem_dummies_of_reads hreads, carried_of_reads hreads⟩
          cases hreads with
          | own _ _ hx _ _ => exact .inl hx
          | call _ g _ hg hcall hread _ =>
            -- the called function is an earlier one and has been lifted
            have hpre : g ∈ pre := by
              rw [hfns] at hg
              refine (mem_append.1 hg).resolve_right fun h => ?_
              exact hv.earlier pre f fs hfns g h (mem_names_of_mem_calls _ hcall)
            have hname : g.name ∈ done.map Prod.fst := hdone.names ▸ mem_map_of_mem hpre
            obtain ⟨fc, hfc, hfcname⟩ := mem_map.1 hname
            obtain ⟨g', hg', hname', hreads'⟩ := hdone.reads fc hfc
            have hgg : g' = g := eq_of_name hv (hfns ▸ mem_append_left _ hg')
              (hfns ▸ mem_append_left _ hpre)
              (hname'.trans hfcname)
            subst hgg
            refine .inr ⟨g'.name, hcall, fc.2, ?_, (hreads' x).2 hread⟩
            rw [lookupOutside, if_neg not_mem_nil]
            have hmem : (g'.name, fc.2) ∈ done := hfcname ▸ hfc
            exact AssocLists.lookup_of_mem hnodup hmem

end Scope

end StatementFunctions
