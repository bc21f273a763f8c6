/-
# What the new functions compute

Where every call carries over its variables a new function computes what the statement function
did if its variables have the bounds that the new declarations give them.
-/
import DaceFortran.StatementFunctions.LiftedCalls

open List

namespace StatementFunctions

variable {Name Op : Type} [DecidableEq Name]

/-! ## Values -/

section

variable {D : Type} {I : Interp Op D} {F G : Functions Name D} {env env' store : Name → D}

omit [DecidableEq Name] in
/-- A value depends on the names of the expression. -/
theorem eval_congr (e : Expr Name Op) (h : ∀ x ∈ e.names, F x = G x ∧ env x = env' x) :
    eval I F env e = eval I G env' e := by
  have hargs : ∀ {args : List (Expr Name Op)}, (∀ a ∈ args, eval I F env a = eval I G env' a) →
      evalArgs I F env args = evalArgs I G env' args := by
    intro args
    induction args with
    | nil => exact fun _ => rfl
    | cons a args ih =>
      intro h
      rw [evalArgs, evalArgs, h a mem_cons_self, ih fun b hb => h b (mem_cons_of_mem a hb)]
  induction e using Expr.induct with
  | var x => exact congrArg some (h x mem_cons_self).2
  | op o args ih =>
    rw [eval, eval, hargs fun a ha => ih a ha fun x hx => h x (mem_names_args.2 ⟨a, ha, hx⟩)]
  | ref f args ih =>
    have hf := h f mem_cons_self
    rw [eval, eval, hf.1, hf.2, hargs fun a ha => ih a ha fun x hx =>
      h x (mem_cons_of_mem f (mem_names_args.2 ⟨a, ha, hx⟩))]

omit [DecidableEq Name] in
/-- Arguments behind others. -/
theorem evalArgs_append_vars (args : List (Expr Name Op)) (xs : List Name) :
    evalArgs I F env (args ++ xs.map .var) = (evalArgs I F env args).map fun vs => vs ++
      xs.map env := by
  induction args with
  | nil =>
    have hvars : evalArgs I F env (xs.map .var) = some (xs.map env) := by
      induction xs with
      | nil => rfl
      | cons x xs ih => rw [map_cons, evalArgs, eval, ih]; rfl
    exact hvars
  | cons a args ih =>
    rw [cons_append, evalArgs, evalArgs, ih]
    cases eval I F env a with
    | none => rfl
    | some v => cases evalArgs I F env args <;> rfl

/-- **The value of a rewritten expression** is the one of the expression, where the new functions of
its calls do what the statement functions do. -/
theorem eval_carryAll {isFn : Name → Bool} {T : Name → Option (List Name)}
    (hfn : ∀ f, isFn f = (T f).isSome)
    {captured : List Name} (henv : ∀ x, x ∉ captured → env x = store x) (e : Expr Name Op) :
    ∀ {enclosing : List Name},
      (∀ f ∈ e.calls, match T f with
        | some cs => ∃ m m', F f = some m ∧ G f = some m' ∧ ∀ vs, m' (vs ++ cs.map store) = m vs
        | none => F f = none ∧ G f = none) →
      AllCalls isFn (fun E f _ => ∀ cs, T f = some cs → ∀ x ∈ cs, f ∉ E ∧
        x ∉ captured) enclosing e →
      eval I G env (carryAll (notIn T enclosing) e) = eval I F env e := by
  have hlist : ∀ {args : List (Expr Name Op)} {E : List Name},
      (∀ a ∈ args, eval I G env (carryAll (notIn T E) a) = eval I F env a) →
      evalArgs I G env (carryAllArgs (notIn T E) args) = evalArgs I F env args := by
    intro args E
    induction args with
    | nil => exact fun _ => rfl
    | cons a args ih =>
      intro h
      rw [carryAllArgs, evalArgs, evalArgs, h a mem_cons_self,
        ih fun b hb => h b (mem_cons_of_mem a hb)]
  induction e using Expr.induct with
  | var x => exact fun _ _ => rfl
  | op o args ih =>
    intro E hcalls h
    rw [AllCalls, allCallsArgs_iff] at h
    rw [carryAll, eval, eval,
      hlist fun a ha => ih a ha (fun f hf => hcalls f (mem_calls_args.2 ⟨a, ha, hf⟩)) (h a ha)]
  | ref f args ih =>
    intro E hcalls h
    have hf := hcalls f mem_cons_self
    have hargs : ∀ {E' : List Name}, AllCallsArgs isFn (fun E f _ => ∀ cs, T f = some cs →
      ∀ x ∈ cs, f ∉ E ∧
        x ∉ captured) E' args → evalArgs I G env (carryAllArgs (notIn T E') args) =
          evalArgs I F env args := by
      intro E' h'
      rw [allCallsArgs_iff] at h'
      exact hlist fun a ha => ih a ha
        (fun g hg => hcalls g (mem_cons_of_mem f (mem_calls_args.2 ⟨a, ha, hg⟩)))
        (h' a ha)
    cases hT : T f with
    | none =>
      have hfn' : isFn f = false := by rw [hfn, hT]; rfl
      have hnot : notIn T E f = none := by unfold notIn; rw [hT, ite_self]
      rw [hT] at hf
      rw [AllCalls, hfn', if_neg (by simp)] at h
      simp only [carryAll, hnot]
      rw [eval, eval, hargs h, hf.1, hf.2]
    | some cs =>
      have hfn' : isFn f = true := by rw [hfn, hT]; rfl
      rw [hT] at hf
      obtain ⟨m, m', hm, hm', heq⟩ := hf
      rw [AllCalls, hfn', if_pos rfl] at h
      obtain ⟨hplain, h⟩ := h
      by_cases hE : f ∈ E
      · -- an inner call: there is nothing to carry over
        have hnot : notIn T E f = none := if_pos hE
        have hnil : cs = [] := eq_nil_iff_forall_not_mem.2 fun x hx => (hplain cs hT x hx).1 hE
        subst hnil
        simp only [carryAll, hnot]
        rw [eval, eval, notIn_cons hE, hargs h, hm, hm']
        congr 1
        funext vs
        have hvs := heq vs
        rwa [map_nil, append_nil] at hvs
      · have hnot : notIn T E f = some cs := by unfold notIn; rw [if_neg hE, hT]
        have hcs : cs.map env = cs.map store :=
          map_congr_left fun x hx => henv x (hplain cs hT x hx).2
        simp only [carryAll, hnot]
        rw [eval, eval, without_notIn, evalArgs_append_vars, hargs h, hm, hm', hcs]
        cases evalArgs I F env args with
        | none => rfl
        | some vs => exact heq vs

/-! ## The functions -/

theorem bindDummies_of_notMem {dummies : List Name} {vs : List D} {x : Name} (h : x ∉ dummies) :
    bindDummies dummies vs store x = store x := by
  unfold bindDummies
  have hnone : (dummies.zip vs).lookup x = none := by
    rw [AssocLists.lookup_eq_none]
    intro hx
    obtain ⟨p, hp, rfl⟩ := mem_map.1 hx
    exact h (of_mem_zip hp).1
  rw [hnone]
  rfl

omit [DecidableEq Name] in
theorem zip_map_self (xs : List Name) : xs.zip (xs.map store) = xs.map fun x => (x, store x) := by
  induction xs with
  | nil => rfl
  | cons x xs ih => rw [map_cons, zip_cons_cons, ih, map_cons]

/-- Carried-over variables are as they are outside. -/
theorem bindDummies_append {dummies carry : List Name} {vs : List D}
    (h : vs.length = dummies.length) :
    bindDummies (dummies ++ carry) (vs ++ carry.map store) store =
      bindDummies dummies vs store := by
  funext x
  unfold bindDummies
  rw [zip_append h.symm, lookup_append]
  cases (dummies.zip vs).lookup x with
  | some v => rfl
  | none =>
    rw [Option.none_or]
    cases hx : (carry.zip (carry.map store)).lookup x with
    | none => rfl
    | some w =>
      have hmem := AssocLists.mem_of_lookup hx
      rw [zip_map_self, mem_map] at hmem
      obtain ⟨y, -, hy⟩ := hmem
      obtain ⟨rfl, rfl⟩ := Prod.mk.inj hy
      rfl

end

namespace Scope

/-- The variables that a function reads have known bounds, without the names of its dummy
arguments. -/
def BoundsPlain (S : Scope Name Op) : Prop := ∀ f ∈ S.fns, ∀ x d, S.Reads f x → S.decls x = some d →
  S.KnownBounds d ∧ ∀ y ∈ boundNames d, y ∉ f.dummies

variable {S : Scope Name Op} {D : Type} {I : Interp Op D} {F G : Functions Name D}
    {store : Name → D}

variable {f : StmtFn Name Op}

/-- **The names in a new function** are those in the expression of the statement function. -/
theorem entryEnv_eq (hv : S.Valid) (hb : S.BoundsPlain) (hfits : S.Fits I store)
    (hG : ∀ x, S.isFn x = false → G x = none) (hf : f ∈ S.fns) {vs : List D}
    (hlen : vs.length = f.dummies.length) :
    entryEnv I S G store (S.lift f) (vs ++ (S.lift f).carry.map store) =
      bindDummies f.dummies vs store := by
  have hraw : bindDummies ((S.lift f).dummies ++ (S.lift f).carry)
    (vs ++ (S.lift f).carry.map store) store =
      bindDummies f.dummies vs store := bindDummies_append hlen
  funext x
  unfold entryEnv
  rw [hraw]
  simp only
  by_cases hx : x ∈ (S.lift f).carry
  · rw [if_pos hx]
    have hreads : S.Reads f x := ((lookup_table hv hf).2 x).1 hx
    cases hd : S.decls x with
    | none => rfl
    | some d =>
      obtain ⟨hknown, hnames⟩ := hb f hf x d hreads hd
      have hstore : bindDummies f.dummies vs store x = store x :=
        bindDummies_of_notMem (notMem_dummies_of_reads hreads)
      -- the bounds are constants, which the function has from outside
      have hdims : evalDims I G (bindDummies f.dummies vs store) d.dims =
          evalDims I (fun _ => none) store d.dims := by
        rcases hknown with hnil | ⟨-, hconst⟩
        · rw [hnil]
          rfl
        · have hbound : ∀ e : Expr Name Op, (∀ y ∈ e.names, y ∈ boundNames d) →
              eval I G (bindDummies f.dummies vs store) e = eval I (fun _ => none) store e := by
            intro e he
            refine eval_congr e fun y hy => ⟨hG y ?_, bindDummies_of_notMem (hnames y (he y hy))⟩
            by_contra hfn
            obtain ⟨g, hg, rfl⟩ := isFn_iff.1 (by simpa using hfn)
            obtain ⟨dg, hdg, hconstant, hfixed⟩ := hv.declared g hg
            have hc := hconst g.name (he _ hy)
            rw [fixed, hdg] at hc
            simp [hconstant, hfixed] at hc
          refine map_congr_left fun b hbmem => ?_
          have hmem : ∀ y, (y ∈ b.1.elim [] Expr.names ∨ y ∈ b.2.elim [] Expr.names) →
            y ∈ boundNames d := fun y hy =>
            mem_flatMap.2 ⟨b, hbmem, mem_append.2 hy⟩
          obtain ⟨lower, upper⟩ := b
          have hlower : lower.bind (eval I G (bindDummies f.dummies vs store)) =
              lower.bind (eval I (fun _ => none) store) := by
            cases lower with
            | none => rfl
            | some e => exact hbound e fun y hy => hmem y (.inl hy)
          have hupper : upper.bind (eval I G (bindDummies f.dummies vs store)) =
              upper.bind (eval I (fun _ => none) store) := by
            cases upper with
            | none => rfl
            | some e => exact hbound e fun y hy => hmem y (.inr hy)
          rw [hlower, hupper]
      show I.assoc (evalDims I G (bindDummies f.dummies vs store) d.dims)
        (bindDummies f.dummies vs store x) = _
      rw [hdims, hstore]
      exact hfits x d hd hknown
  · rw [if_neg hx]

/-- Functions of a part of the list, the statement functions and the new ones: a new one computes
with the carried-over variables what the statement function does. -/
structure Agree (S : Scope Name Op) (pre : List (StmtFn Name Op)) (store : Name → D)
    (F G : Functions Name D) : Prop where
  same : ∀ f ∈ pre, ∃ m m', F f.name = some m ∧ G f.name = some m' ∧
    ∀ vs, m' (vs ++ (S.lift f).carry.map store) = m vs
  none : ∀ x, x ∉ pre.map StmtFn.name → F x = none ∧ G x = none

theorem Agree.of_lookup {pre : List (StmtFn Name Op)} (hagree : S.Agree pre store F G)
    (hv : S.Valid) {g : Name}
    (hpre : ∀ k ∈ pre, k ∈ S.fns) (hg : ∀ k ∈ S.fns, k.name = g → k ∈ pre) :
    match S.table.lookup g with
    | some cs => ∃ m m', F g = some m ∧ G g = some m' ∧ ∀ vs, m' (vs ++ cs.map store) = m vs
    | Option.none => F g = Option.none ∧ G g = Option.none := by
  cases hlookup : S.table.lookup g with
  | none =>
    refine hagree.none g fun hmem => ?_
    obtain ⟨k, hk, rfl⟩ := mem_map.1 hmem
    exact absurd (((lookup_table_eq_none hv).1 hlookup).symm.trans (isFn_iff.2 ⟨k, hpre k hk, rfl⟩))
      (by simp)
  | some cs =>
    obtain ⟨k, hk, rfl, rfl⟩ := of_lookup_table hv hlookup
    exact hagree.same k (hg k hk rfl)

/-- **One function**: what a call computes. -/
theorem callLifted_eq (hv : S.Valid) (hb : S.BoundsPlain) (hfits : S.Fits I store)
    (hplain : S.CallsPlain)
    {pre post : List (StmtFn Name Op)} (hfns : S.fns = pre ++ f :: post)
    (hagree : S.Agree pre store F G) (vs : List D) :
    callLifted I S G store (S.lift f) (vs ++ (S.lift f).carry.map store) =
      callStmtFn I F store f vs := by
  have hf : f ∈ S.fns := hfns ▸ mem_append_right pre mem_cons_self
  have hG : ∀ x, S.isFn x = false → G x = Option.none := by
    intro x hx
    refine (hagree.none x fun hmem => ?_).2
    obtain ⟨g, hg, rfl⟩ := mem_map.1 hmem
    exact absurd (hx.symm.trans (isFn_iff.2 ⟨g, hfns ▸ mem_append_left _ hg, rfl⟩)) (by simp)
  unfold callLifted callStmtFn
  have hlength : (vs ++ (S.lift f).carry.map store).length =
    ((S.lift f).dummies ++ (S.lift f).carry).length ↔
      vs.length = f.dummies.length := by
    rw [length_append, length_append, length_map]
    exact Nat.add_right_cancel_iff
  by_cases hlen : vs.length = f.dummies.length
  · rw [if_pos (hlength.2 hlen), if_pos hlen, entryEnv_eq hv hb hfits hG hf hlen, lift_body hv hf]
    have henv : ∀ x, x ∉ f.dummies → bindDummies f.dummies vs store x = store x :=
      fun x hx => bindDummies_of_notMem hx
    have hbody := hplain.1 f hf
    rw [← callable_nil] at hbody
    have hcalls := (allCalls_callPlain hv f.body).2 hbody
    rw [← notIn_nil (T := lookupOutside [] S.table)]
    refine eval_carryAll (callable_eq hv []) henv f.body (fun g hg => ?_) hcalls
    rw [lookupOutside, if_neg not_mem_nil]
    refine hagree.of_lookup hv (fun k hk => hfns ▸ mem_append_left _ hk) fun k hk hname => ?_
    rw [hfns] at hk
    exact (mem_append.1 hk).resolve_right fun h =>
      hv.earlier pre f post hfns k h (hname ▸ mem_names_of_mem_calls _ hg)
  · rw [if_neg fun h => hlen (hlength.1 h), if_neg hlen]

/-- **All functions.** -/
theorem agree_functions (hv : S.Valid) (hb : S.BoundsPlain) (hfits : S.Fits I store)
    (hplain : S.CallsPlain)
    {fs : List (StmtFn Name Op)} :
    ∀ {pre : List (StmtFn Name Op)} {F G : Functions Name D}, S.fns = pre ++ fs →
      S.Agree pre store F G →
      S.Agree S.fns store (stmtFunctions I store F fs)
        (liftedFunctions I S store G (fs.map S.lift)) := by
  induction fs with
  | nil =>
    intro pre F G hfns hagree
    rw [append_nil] at hfns
    rw [hfns]
    exact hagree
  | cons f fs ih =>
    intro pre F G hfns hagree
    rw [map_cons, stmtFunctions, liftedFunctions]
    have happ : S.fns = (pre ++ [f]) ++ fs := by rw [hfns, append_assoc]; rfl
    refine ih happ ⟨fun g hg => ?_, fun x hx => ?_⟩
    · rcases mem_append.1 hg with hg | hg
      · have hne : g.name ≠ f.name := by
          have hnodup := hv.nodup
          rw [hfns, map_append, map_cons] at hnodup
          exact (nodup_append.1 hnodup).2.2 _ (mem_map_of_mem hg) _ mem_cons_self
        rw [if_neg hne, if_neg (show g.name ≠ (S.lift f).name from hne)]
        exact hagree.same g hg
      · obtain rfl := mem_singleton.1 hg
        exact ⟨_, _, if_pos rfl, if_pos rfl, callLifted_eq hv hb hfits hplain hfns hagree⟩
    · rw [map_append, mem_append, not_or] at hx
      have hne : x ≠ f.name := fun h => hx.2 (h ▸ mem_cons_self)
      rw [if_neg hne, if_neg (show x ≠ (S.lift f).name from hne)]
      exact hagree.none x hx.1

/-- **The values** at every site. -/
theorem keepsValues (hv : S.Valid) (hplain : S.CallsPlain) (hb : S.BoundsPlain) :
    S.KeepsValues := by
  intro D I store hfits s hs e he inner
  have hagree := agree_functions hv hb hfits hplain (nil_append _).symm
    (⟨fun _ h => absurd h not_mem_nil, fun _ _ => ⟨rfl, rfl⟩⟩ : S.Agree [] store
      (fun _ => none) fun _ => none)
  have henv : ∀ x, x ∉ s.locals → shadow s.locals inner store x = store x := fun x hx => if_neg hx
  rw [rewriteSite, rewriteAll_eq (table_nodup hv), ← notIn_nil
    (T := lookupOutside s.locals S.table)]
  refine eval_carryAll (callable_eq hv s.locals) henv e (fun g _ => ?_)
    ((allCalls_callPlain hv e).2 (hplain.2 s hs e he))
  unfold lookupOutside hide
  by_cases hlocal : g ∈ s.locals
  · simp [hlocal]
  · simp only [if_neg hlocal]
    exact hagree.of_lookup hv (fun _ hk => hk) fun _ hk _ => hk

/-- The variables. -/
theorem keepsVariables (hv : S.Valid) (hb : S.BoundsPlain) : S.KeepsVariables := by
  intro D I store hfits F hF f hf vs hlen x hx
  rw [entryEnv_eq hv hb hfits hF hf hlen]
  exact bindDummies_of_notMem (notMem_dummies_of_reads (((lookup_table hv hf).2 x).1 hx))

variable {x y : Name} {d : Decl Name Op}

/-- Where the bounds of a variable are not known there is a state in which the dummy argument is not
the variable. -/
theorem knownBounds_of_keepsVariables (hv : S.Valid) (h : S.KeepsVariables) (hf : f ∈ S.fns)
    (hreads : S.Reads f x) (hd : S.decls x = some d) : S.KnownBounds d := by
  by_contra hnot
  -- the variable is the only object that a dummy argument changes
  have hfits : S.Fits (⟨fun _ _ => 0, fun _ _ => 0, fun _ v => if v =
    1 then 0 else v⟩ : Interp Op ℕ)
      fun y => if y = x then 1 else 0 := by
    intro y dy hdy hknown
    by_cases hy : y = x
    · subst hy
      obtain rfl := Option.some.inj (hd.symm.trans hdy)
      exact absurd hknown hnot
    · simp [hy]
  have hx : x ∈ (S.lift f).carry := ((lookup_table hv hf).2 x).2 hreads
  have heq := h ℕ _ _ hfits (fun _ => none) (fun _ _ => rfl) f hf
    (List.replicate f.dummies.length 0)
    length_replicate x hx
  unfold entryEnv at heq
  rw [show (S.lift f).dummies = f.dummies from rfl, bindDummies_append length_replicate] at heq
  simp only [if_pos hx, hd] at heq
  rw [bindDummies_of_notMem (notMem_dummies_of_reads hreads)] at heq
  simp at heq

/-- The data objects that only say whether a marked one was read. -/
def marks : Interp Op Bool where
  op := fun _ vs => vs.any id
  elem := fun v vs => v || vs.any id
  assoc := fun dims v => v || dims.any fun b => b.1 = some true || b.2 = some true

theorem marks_assoc (dims : List (Option Bool × Option Bool)) (v : Bool) :
    (marks : Interp Op Bool).assoc dims v =
    (v || dims.any fun b => b.1 = some true || b.2 = some true) := rfl

omit [DecidableEq Name] in
theorem eval_marks (env : Name → Bool) (e : Expr Name Op) :
    eval (marks : Interp Op Bool) (fun _ => none) env e = some (e.names.any env) := by
  have hargs : ∀ {args : List (Expr Name Op)},
    (∀ a ∈ args, eval marks (fun _ => none) env a = some (a.names.any env)) →
      ∃ vs, evalArgs marks (fun _ => none) env args = some vs ∧
        vs.any id = (Expr.namesArgs args).any env := by
    intro args
    induction args with
    | nil => exact fun _ => ⟨[], rfl, rfl⟩
    | cons a args ih =>
      intro h
      obtain ⟨vs, hvs, hany⟩ := ih fun b hb => h b (mem_cons_of_mem a hb)
      refine ⟨a.names.any env :: vs, ?_, ?_⟩
      · rw [evalArgs, h a mem_cons_self, hvs]
        rfl
      · rw [any_cons, hany, Expr.namesArgs, any_append]
        rfl
  induction e using Expr.induct with
  | var x => simp [eval, Expr.names]
  | op o args ih =>
    obtain ⟨vs, hvs, hany⟩ := hargs ih
    rw [eval, hvs, Expr.names, ← hany]
    rfl
  | ref f args ih =>
    obtain ⟨vs, hvs, hany⟩ := hargs ih
    rw [eval, hvs, Expr.names, any_cons, ← hany]
    rfl

theorem bindDummies_replicate {dummies : List Name} {v : D} (h : y ∈ dummies) :
    bindDummies dummies (List.replicate dummies.length v) store y = v := by
  unfold bindDummies
  cases hlookup : (dummies.zip (List.replicate dummies.length v)).lookup y with
  | none =>
    rw [AssocLists.lookup_eq_none, map_fst_zip (by simp)] at hlookup
    exact absurd h hlookup
  | some w => exact eq_of_mem_replicate (of_mem_zip (AssocLists.mem_of_lookup hlookup)).2

/-- Where a bound has the name of a dummy argument there is a state in which the dummy argument is
not the variable. -/
theorem notMem_dummies_of_keepsVariables (hv : S.Valid) (h : S.KeepsVariables) (hf : f ∈ S.fns)
    (hreads : S.Reads f x) (hd : S.decls x = some d) (hy : y ∈ boundNames d) :
    y ∉ f.dummies := by
  intro hdummy
  -- no variable is marked, the arguments of the function are
  have hfits : S.Fits (marks : Interp Op Bool) fun _ => false := by
    intro z dz _ _
    have hdims : ∀ b ∈ evalDims (marks : Interp Op Bool) (fun _ => none) (fun _ => false) dz.dims,
        ¬ (b.1 = some true || b.2 = some true) := by
      intro b hb
      obtain ⟨⟨lower, upper⟩, -, rfl⟩ := mem_map.1 hb
      cases lower <;> cases upper <;> simp [eval_marks]
    rw [marks_assoc, Bool.false_or]
    exact any_eq_false.2 hdims
  have hx : x ∈ (S.lift f).carry := ((lookup_table hv hf).2 x).2 hreads
  have heq := h Bool _ _ hfits (fun _ => none) (fun _ _ => rfl) f hf
    (List.replicate f.dummies.length true)
    length_replicate x hx
  unfold entryEnv at heq
  rw [show (S.lift f).dummies = f.dummies from rfl, bindDummies_append length_replicate] at heq
  simp only [if_pos hx, hd] at heq
  rw [bindDummies_of_notMem (notMem_dummies_of_reads hreads)] at heq
  rw [marks_assoc, Bool.false_or] at heq
  -- the bound that has the name reads a marked object
  have hmark : ∀ e : Expr Name Op, y ∈ e.names → eval marks (fun _ => none)
      (bindDummies f.dummies (List.replicate f.dummies.length true) fun _ => false) e = some true :=
        fun e he => by
    rw [eval_marks, any_eq_true.2 ⟨y, he, bindDummies_replicate hdummy⟩]
  obtain ⟨⟨lower, upper⟩, hb, hyb⟩ := mem_flatMap.1 hy
  have hnone := any_eq_false.1 heq _ (mem_map_of_mem hb)
  rcases mem_append.1 hyb with hyb | hyb
  · cases lower with
    | none => exact absurd hyb not_mem_nil
    | some e => simp [hmark e hyb] at hnone
  · cases upper with
    | none => exact absurd hyb not_mem_nil
    | some e => simp [hmark e hyb] at hnone

theorem boundsPlain_of_keepsVariables (hv : S.Valid) (h : S.KeepsVariables) : S.BoundsPlain :=
  fun _ hf _ _ hreads hd =>
  ⟨knownBounds_of_keepsVariables hv h hf hreads hd,
    fun _ hy => notMem_dummies_of_keepsVariables hv h hf hreads hd hy⟩

end Scope

/-! ## A nested call -/

/-- `f(0) = 0 + 1` with the variable `1` of the scope and an expression of the executable part;
names are numbers, the function is `2`. -/
def addOne (e : Expr ℕ Unit) : Scope ℕ Unit where
  internal := false
  decls := fun x => if x ≤ 2 then some ⟨false, false, false, []⟩ else none
  hostFixed := fun _ => false
  fns := [⟨2, [0], .op () [.var 0, .var 1]⟩]
  sites := [⟨[], [e]⟩]

theorem valid_addOne {e : Expr ℕ Unit}
    (h : AllCalls (fun x => x = 2) (fun _ _ args => args.length = 1) [] e) :
    (addOne e).Valid where
  nodup := by simp [addOne]
  declared := by simp [addOne]
  dummies := by simp [addOne, Scope.isFn]
  earlier := by
    intro pre f post heq g hg
    cases pre with
    | nil =>
      obtain ⟨rfl, rfl⟩ := List.cons.inj heq
      obtain rfl := mem_singleton.1 hg
      simp [Expr.names, Expr.namesArgs]
    | cons k pre =>
      have hlen := congrArg List.length heq
      simp [addOne] at hlen
  arity := by simp [addOne, AllCalls, AllCallsArgs]
  aritySites := by
    intro s hs e' he'
    obtain rfl := mem_singleton.1 hs
    obtain rfl := mem_singleton.1 he'
    refine (allCalls_congr _ (fun x _ => ?_) fun E f args hf => ?_).1 h
    · simp [Scope.callable, Scope.isFn, addOne, eq_comm]
    · obtain rfl : f = 2 := by simpa using hf
      simp [addOne]

end StatementFunctions
