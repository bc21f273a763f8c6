/-
# Exactly when every call carries over its variables

This is where no call of a function that reads variables is an argument of another call of it and
no such variable is declared anew at a call.
-/
import DaceFortran.StatementFunctions.RewrittenCalls

open List

namespace StatementFunctions

variable {Name Op : Type} [DecidableEq Name]

/-! ## The calls of the walk -/

theorem carryAll_congr (e : Expr Name Op) :
    ∀ {T T' : Name → Option (List Name)}, (∀ f ∈ e.calls, T f = T' f) →
    carryAll T e = carryAll T' e := by
  induction e using Expr.induct with
  | var x => exact fun _ => rfl
  | op o args ih =>
    intro T T' h
    rw [carryAll, carryAll, carryAllArgs_eq, carryAllArgs_eq]
    exact congrArg _ (map_congr_left fun a ha => ih a ha fun f hf => h f
      (mem_calls_args.2 ⟨a, ha, hf⟩))
  | ref g args ih =>
    intro T T' h
    have hargs : ∀ {U U' : Name → Option (List Name)}, (∀ f ∈ Expr.callsArgs args, U f = U' f) →
        carryAllArgs U args = carryAllArgs U' args := by
      intro U U' hU
      rw [carryAllArgs_eq, carryAllArgs_eq]
      exact map_congr_left fun a ha => ih a ha fun f hf => hU f (mem_calls_args.2 ⟨a, ha, hf⟩)
    have hmem : ∀ f ∈ Expr.callsArgs args, T f = T' f := fun f hf => h f (mem_cons_of_mem g hf)
    simp only [carryAll]
    rw [← h g mem_cons_self, hargs hmem]
    cases T g with
    | none => rfl
    | some cs =>
      have hwithout : ∀ f ∈ Expr.callsArgs args, without T g f = without T' g f := fun f hf => by
        unfold without
        rw [hmem f hf]
      simp only
      rw [hargs hwithout]

/-- The functions that no enclosing call is of. -/
def notIn (T : Name → Option (List Name)) (enclosing : List Name) : Name →
    Option (List Name) := fun f =>
  if f ∈ enclosing then none else T f

variable {T : Name → Option (List Name)}

variable {enclosing : List Name}

theorem without_notIn {f : Name} :
    without (notIn T enclosing) f = notIn T (f :: enclosing) := by
  funext g
  unfold without notIn
  by_cases hg : g = f
  · simp [hg]
  · simp [hg]

theorem notIn_cons {f : Name} (h : f ∈ enclosing) :
    notIn T enclosing = notIn T (f :: enclosing) := by
  funext g
  unfold notIn
  by_cases hg : g = f
  · simp [hg, h]
  · simp [hg]

theorem notIn_nil : notIn T [] = T := by
  funext f
  exact if_neg not_mem_nil

omit [DecidableEq Name] in
/-- The carried-over arguments stand behind the actual arguments exactly where there are none or
they were added. -/
theorem exists_actuals_iff {args : List (Expr Name Op)} {cs : List Name} {n : ℕ}
    (h : args.length = n) :
    (∃ actuals, args = actuals ++ cs.map .var ∧ actuals.length = n) ↔ cs = [] := by
  constructor
  · rintro ⟨actuals, rfl, hlen⟩
    rw [length_append, length_map] at h
    exact length_eq_zero_iff.1 (by omega)
  · rintro rfl
    exact ⟨args, (append_nil args).symm, h⟩

/-- **Every call carries over its variables** exactly where the calls of one function are not nested
and no variable is declared anew. -/
theorem allCalls_carryAll {isFn : Name → Bool} (hfn : ∀ f, isFn f = (T f).isSome)
    (captured : List Name) {n : Name → ℕ} (e : Expr Name Op) :
    ∀ (outer : List Name) {enclosing : List Name},
    AllCalls isFn (fun _ f args => args.length = n f) enclosing e →
      (AllCalls isFn (fun _ f args => ∀ cs, T f = some cs →
        (∃ actuals, args = actuals ++ cs.map .var ∧
          actuals.length = n f) ∧ ∀ x ∈ cs, x ∉ captured) outer (carryAll (notIn T enclosing) e) ↔
        AllCalls isFn (fun E f _ => ∀ cs, T f = some cs → ∀ x ∈ cs, f ∉ E ∧
          x ∉ captured) enclosing e) := by
  induction e using Expr.induct with
  | var x => exact fun _ _ _ => Iff.rfl
  | op o args ih =>
    intro outer E h
    rw [AllCalls, allCallsArgs_iff] at h
    rw [carryAll, AllCalls, AllCalls, allCallsArgs_iff, allCallsArgs_iff,
      carryAllArgs_eq, forall_mem_map]
    exact forall₂_congr fun a ha => ih a ha outer (h a ha)
  | ref f args ih =>
    intro outer E h
    have hargs : ∀ {outer E' : List Name},
      AllCallsArgs isFn (fun _ f args => args.length = n f) E' args →
        (AllCallsArgs isFn (fun _ f args => ∀ cs, T f = some cs →
          (∃ actuals, args = actuals ++ cs.map .var ∧
            actuals.length = n f) ∧ ∀ x ∈ cs, x ∉ captured) outer (carryAllArgs (notIn T E') args) ↔
          AllCallsArgs isFn (fun E f _ => ∀ cs, T f = some cs → ∀ x ∈ cs, f ∉ E ∧
            x ∉ captured) E' args) := by
      intro outer E' h'
      rw [allCallsArgs_iff] at h'
      rw [allCallsArgs_iff, allCallsArgs_iff, carryAllArgs_eq, forall_mem_map]
      exact forall₂_congr fun a ha => ih a ha outer (h' a ha)
    cases hT : T f with
    | none =>
      have hf : isFn f = false := by rw [hfn, hT]; rfl
      have hnot : notIn T E f = none := by unfold notIn; rw [hT, ite_self]
      rw [AllCalls, hf, if_neg (by simp)] at h
      simp only [carryAll, hnot]
      rw [AllCalls, AllCalls, hf, if_neg (by simp), if_neg (by simp), hargs h]
    | some cs =>
      have hf : isFn f = true := by rw [hfn, hT]; rfl
      rw [AllCalls, hf, if_pos rfl] at h
      obtain ⟨hlen, h⟩ := h
      by_cases hE : f ∈ E
      · -- an inner call: its text is as it was
        have hnot : notIn T E f = none := if_pos hE
        simp only [carryAll, hnot]
        rw [AllCalls, AllCalls, hf, if_pos rfl, if_pos rfl, notIn_cons hE, hargs h]
        refine and_congr_left fun _ => ⟨fun hp cs' hcs' x hx => ?_, fun hp cs' hcs' => ?_⟩
        · have hnil : cs' = [] :=
            (exists_actuals_iff (by rw [carryAllArgs_eq, length_map, hlen])).1 (hp cs' hcs').1
          rw [hnil] at hx
          exact absurd hx not_mem_nil
        · have hnil : cs' = [] := eq_nil_iff_forall_not_mem.2 fun x hx => (hp cs' hcs' x hx).1 hE
          subst hnil
          exact ⟨(exists_actuals_iff (by rw [carryAllArgs_eq, length_map, hlen])).2 rfl,
            fun x hx => absurd hx not_mem_nil⟩
      · have hnot : notIn T E f = some cs := by unfold notIn; rw [if_neg hE, hT]
        simp only [carryAll, hnot]
        rw [AllCalls, AllCalls, hf, if_pos rfl, if_pos rfl, without_notIn,
          allCallsArgs_append, hargs h]
        refine and_congr ⟨fun hp cs' hcs' x hx => ⟨hE, (hp cs' hcs').2 x hx⟩,
          fun hp cs' hcs' => ⟨?_, fun x hx =>
          (hp cs' hcs' x hx).2⟩⟩ ⟨fun h' => h'.1, fun h' => ⟨h', allCallsArgs_vars _ cs⟩⟩
        obtain rfl := Option.some.inj (hT.symm.trans hcs')
        exact ⟨_, rfl, by rw [carryAllArgs_eq, length_map, hlen]⟩

namespace Scope

variable (S : Scope Name Op)

/-! ## The condition -/

/-- A call of a function that reads variables is not an argument of a call of the same function, and
none of these variables is declared anew where it is. -/
def CallPlain (captured enclosing : List Name) (f : Name) (_ : List (Expr Name Op)) : Prop :=
  ∀ g ∈ S.fns, g.name = f → ∀ x, S.Reads g x → f ∉ enclosing ∧ x ∉ captured

/-- All calls are so; in the expression of a function its dummy arguments are the names that are
declared anew. -/
def CallsPlain : Prop :=
  (∀ f ∈ S.fns, AllCalls S.isFn (S.CallPlain f.dummies) [] f.body) ∧
    ∀ s ∈ S.sites, ∀ e ∈ s.exprs, AllCalls (S.callable s.locals) (S.CallPlain s.locals) [] e

variable {S}

/-! ## The table -/

theorem lists_table (hv : S.Valid) : S.Lists S.fns S.table :=
  lists_liftLoop hv (nil_append _).symm ⟨rfl, by simp⟩

theorem table_nodup (hv : S.Valid) : (S.table.map Prod.fst).Nodup :=
  (lists_table hv).names ▸ hv.nodup

variable {f : StmtFn Name Op}

theorem lookup_table (hv : S.Valid) (hf : f ∈ S.fns) :
    S.table.lookup f.name = some (S.lift f).carry ∧ ∀ x, x ∈ (S.lift f).carry ↔ S.Reads f x := by
  have hname : f.name ∈ S.table.map Prod.fst := (lists_table hv).names ▸ mem_map_of_mem hf
  obtain ⟨fc, hfc, hfcname⟩ := mem_map.1 hname
  obtain ⟨g, hg, hgname, hreads⟩ := (lists_table hv).reads fc hfc
  obtain rfl := eq_of_name hv hg hf (hgname.trans hfcname)
  have hlookup : S.table.lookup g.name = some fc.2 :=
    AssocLists.lookup_of_mem (table_nodup hv) (hfcname ▸ hfc)
  have hcarry : (S.lift g).carry = fc.2 := by rw [lift, hlookup]; rfl
  rw [hcarry]
  exact ⟨hlookup, hreads⟩

theorem lookup_table_eq_none (hv : S.Valid) {x : Name} : S.table.lookup x = none ↔
    S.isFn x = false := by
  rw [AssocLists.lookup_eq_none, (lists_table hv).names, ← Bool.not_eq_true, isFn_iff, mem_map]

theorem isFn_eq (hv : S.Valid) (x : Name) : S.isFn x = (lookupOutside [] S.table x).isSome := by
  rw [lookupOutside, if_neg not_mem_nil]
  cases h : S.table.lookup x with
  | none => exact (lookup_table_eq_none hv).1 h
  | some cs =>
    by_contra hfn
    rw [(lookup_table_eq_none hv).2 (by simpa using hfn)] at h
    exact absurd h (by simp)

theorem callable_eq (hv : S.Valid) (locals : List Name) (x : Name) :
    S.callable locals x = (lookupOutside locals S.table x).isSome := by
  have h := isFn_eq hv x
  rw [lookupOutside, if_neg not_mem_nil] at h
  unfold callable lookupOutside
  by_cases hx : x ∈ locals
  · simp [hx]
  · simp [hx, h]

/-- A function that the table has. -/
theorem of_lookup_table (hv : S.Valid) {f : Name} {cs : List Name}
    (h : S.table.lookup f = some cs) :
    ∃ g ∈ S.fns, g.name = f ∧ (S.lift g).carry = cs := by
  obtain ⟨g, hg, hgname, -⟩ := (lists_table hv).reads _ (AssocLists.mem_of_lookup h)
  refine ⟨g, hg, hgname, ?_⟩
  have hg' := (lookup_table hv hg).1
  rw [hgname] at hg'
  exact Option.some.inj (hg'.symm.trans h)

/-- The number of dummy arguments of a function. -/
def numDummies (S : Scope Name Op) (f : Name) : ℕ :=
  ((S.fns.find? fun g => g.name = f).map fun g => g.dummies.length).getD 0

theorem numDummies_eq (hv : S.Valid) (hf : f ∈ S.fns) :
    S.numDummies f.name = f.dummies.length := by
  unfold numDummies
  cases h : S.fns.find? fun g => g.name = f.name with
  | none => exact absurd (List.find?_eq_none.1 h f hf) (by simp)
  | some g =>
    obtain rfl := eq_of_name hv (mem_of_find?_eq_some h) hf (by simpa using List.find?_some h)
    rfl

variable {locals captured : List Name}

/-- A callable function. -/
theorem of_callable {f : Name} (h : S.callable locals f = true) :
    ∃ g ∈ S.fns, g.name = f ∧ f ∉ locals := by
  rw [callable, Bool.and_eq_true, isFn_iff] at h
  obtain ⟨⟨g, hg, rfl⟩, hlocal⟩ := h
  exact ⟨g, hg, rfl, by simpa using hlocal⟩

theorem callable_nil : S.callable [] = S.isFn := by
  funext f
  simp [callable]

theorem lookupOutside_of_mem (hv : S.Valid) {g : StmtFn Name Op} (hg : g ∈ S.fns)
    (hlocal : g.name ∉ locals) : lookupOutside locals S.table g.name = some (S.lift g).carry :=
  (if_neg hlocal).trans (lookup_table hv hg).1

/-- The condition on calls over what the table has. -/
theorem allCalls_callPlain (hv : S.Valid) (e : Expr Name Op) :
    AllCalls (S.callable locals) (fun E f _ => ∀ cs, lookupOutside locals S.table f = some cs →
        ∀ x ∈ cs, f ∉ E ∧ x ∉ captured) [] e ↔
      AllCalls (S.callable locals) (S.CallPlain captured) [] e := by
  refine allCalls_congr e (fun _ _ => rfl) fun E f args hf => ?_
  obtain ⟨g, hg, rfl, hlocal⟩ := of_callable hf
  constructor
  · intro h k hk hname x hx
    obtain rfl := eq_of_name hv hk hg hname
    exact h _ (lookupOutside_of_mem hv hk hlocal) x (((lookup_table hv hk).2 x).2 hx)
  · intro h cs hcs x hx
    obtain rfl := Option.some.inj ((lookupOutside_of_mem hv hg hlocal).symm.trans hcs)
    exact h g hg rfl x (((lookup_table hv hg).2 x).1 hx)

/-- **The calls of an expression in the end.** -/
theorem allCalls_iff (hv : S.Valid) (e : Expr Name Op)
    (harity : AllCalls (S.callable locals)
      (fun _ g args => ∀ h ∈ S.fns, h.name = g → args.length = h.dummies.length) [] e) :
    AllCalls (S.callable locals) (S.CarriesOver captured)
    [] (carryAll (lookupOutside locals S.table) e) ↔
      AllCalls (S.callable locals) (S.CallPlain captured) [] e := by
  have hlen : AllCalls (S.callable locals) (fun _ f args => args.length = S.numDummies f) [] e := by
    refine (allCalls_congr e (fun _ _ => rfl) fun E f args hf => ?_).1 harity
    obtain ⟨g, hg, rfl, -⟩ := of_callable hf
    rw [numDummies_eq hv hg]
    exact ⟨fun h => h g hg rfl, fun h k hk hname => eq_of_name hv hk hg hname ▸ h⟩
  have hwalk := allCalls_carryAll (callable_eq hv locals) captured e [] hlen
  rw [notIn_nil] at hwalk
  refine (allCalls_congr _ (fun _ _ => rfl) fun E f args hf => ?_).trans
    (hwalk.trans (allCalls_callPlain hv e))
  obtain ⟨g, hg, rfl, hlocal⟩ := of_callable hf
  rw [numDummies_eq hv hg]
  constructor
  · rintro ⟨k, hk, hname, actuals, hargs, hlen, hcap⟩ cs hcs
    obtain rfl := eq_of_name hv hk hg hname
    obtain rfl := Option.some.inj ((lookupOutside_of_mem hv hk hlocal).symm.trans hcs)
    exact ⟨⟨actuals, hargs, hlen⟩, hcap⟩
  · intro h
    obtain ⟨⟨actuals, hargs, hlen⟩, hcap⟩ := h _ (lookupOutside_of_mem hv hg hlocal)
    exact ⟨g, hg, rfl, actuals, hargs, hlen, hcap⟩

/-- A function has no call of its own or of a later one. -/
theorem ne_of_mem_calls (hv : S.Valid) (hf : f ∈ S.fns) {g : Name} (hg : g ∈ f.body.calls) :
    g ≠ f.name := by
  rintro rfl
  obtain ⟨pre, post, heq⟩ := append_of_mem hf
  exact hv.earlier pre f post heq f mem_cons_self (mem_names_of_mem_calls _ hg)

/-- The body of a new function. -/
theorem lift_body (hv : S.Valid) (hf : f ∈ S.fns) :
    (S.lift f).body = carryAll (lookupOutside [] S.table) f.body := by
  have hnodup : ((S.table.filter fun fc => fc.1 ≠ f.name).map Prod.fst).Nodup :=
    (table_nodup hv).sublist (filter_sublist.map Prod.fst)
  rw [lift]
  simp only
  rw [rewriteAll_eq hnodup]
  refine carryAll_congr _ fun g hg => ?_
  unfold lookupOutside
  rw [AssocLists.lookup_filter fun x => decide (x ≠ f.name),
    if_pos (c := decide (g ≠ f.name) = true)
    (decide_eq_true (ne_of_mem_calls hv hf hg))]

/-- **Exactly when every call carries over its variables.** -/
theorem callsCarryOver_iff (hv : S.Valid) : S.CallsCarryOver ↔ S.CallsPlain := by
  refine and_congr (forall₂_congr fun f hf => ?_)
    (forall₂_congr fun s hs => forall₂_congr fun e he => ?_)
  · have harity := hv.arity f hf
    rw [← callable_nil] at harity
    rw [lift_body hv hf, ← callable_nil]
    exact allCalls_iff hv f.body harity
  · rw [rewriteSite, rewriteAll_eq (table_nodup hv)]
    exact allCalls_iff hv e (hv.aritySites s hs e he)

end Scope

end StatementFunctions
