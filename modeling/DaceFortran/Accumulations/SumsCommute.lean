/-
# What the converted loop leaves

A converted tasklet stores what the original one stored (`run_convertTasklet`), and a body whose
accesses of the converted arrays are sums only adds to them what does not depend on them
(`Exec.moved`).  So iterations that are independent otherwise may run in any order
(`accumulationsToWcr_keeps`).
-/
import Mathlib.Algebra.BigOperators.Group.List.Basic
import Mathlib.Tactic.Ring
import Mathlib.Tactic.Linarith
import DaceFortran.Accumulations.WcrAccumulations

open List

namespace Accumulations

open Function

variable {fns : String → ℚ → ℚ}

/-! ## The converted tasklet -/

variable {c : Code} {L : Loop} {t : Tasklet} {a : Access} {ins : List Access}

theorem eval_congr {env env' : Env} (h : ∀ x ∈ c.names, env x = env' x) :
    c.eval fns env = c.eval fns env' := by
  induction c with
  | const q => rfl
  | name x =>
    show (env x).map _ = (env' x).map _
    rw [h x mem_cons_self]
  | elem x i ih =>
    show (env x).bind _ = (env' x).bind _
    rw [h x mem_cons_self, ih fun y hy => h y (mem_cons_of_mem _ hy)]
  | neg e ih =>
    show (e.eval fns env).map _ = (e.eval fns env').map _
    rw [ih h]
  | bin op l r ihl ihr =>
    show (l.eval fns env).bind _ = (l.eval fns env').bind _
    rw [ihl fun y hy => h y (mem_append_left _ hy),
      ihr fun y hy => h y (mem_append_right _ hy)]
  | fn f e ih =>
    show (e.eval fns env).map _ = (e.eval fns env').map _
    rw [ih h]

theorem contribution_spec {body : List Assign} {cIn cOut : String}
    (h : contribution body cIn cOut = some c) :
    ∃ op l r, body = [⟨[cOut], .bin op l r⟩]
      ∧ (l = .name cIn ∧ (op = .add ∧ c = r ∨ op = .sub ∧ c = .neg r)
        ∨ r = .name cIn ∧ op = .add ∧ c = l) := by
  unfold contribution at h
  split at h
  · rename_i target op l r
    split at h
    · cases h
    · rename_i htarget
      rw [not_not] at htarget
      subst htarget
      refine ⟨op, l, r, rfl, ?_⟩
      split at h
      · cases h
      · rename_i hop
        split at h
        · rename_i hl
          left
          refine ⟨hl, ?_⟩
          cases h
          cases op
          · exact .inl ⟨rfl, rfl⟩
          · exact .inr ⟨rfl, rfl⟩
          · exact absurd (by simp) hop
          · exact absurd (by simp) hop
        · split at h
          · rename_i hr
            cases h
            exact .inr ⟨hr.1, hr.2, rfl⟩
          · cases h
  · cases h

/-- What `_candidates` finds of a tasklet. -/
theorem accumulation_spec {name : String} {feed : Access}
    (h : L.accumulation name t = some (feed, c)) :
    ∃ e, t.outs = [e] ∧ e.wcr = false ∧ e.data = name ∧ feed ∈ t.ins ∧ feed.data = name
      ∧ feed.lo = e.lo ∧ contribution t.body feed.conn e.conn = some c := by
  unfold Loop.accumulation at h
  split at h
  · rename_i e houts
    dsimp only at h
    split at h
    · cases h
    · rename_i hplain
      split at h
      · cases h
      · split at h
        · rename_i f hfeeds
          obtain ⟨c', hc, heq⟩ := Option.map_eq_some_iff.1 h
          cases heq
          have hmem : feed ∈ t.ins.filter fun a => a.data = name ∧ a.lo = e.lo ∧ a.single := by
            rw [hfeeds]
            exact mem_cons_self
          obtain ⟨hin, hprop⟩ := mem_filter.1 hmem
          simp only [decide_eq_true_eq, Bool.decide_and, Bool.and_eq_true] at hprop
          rw [not_or, not_or, not_not] at hplain
          exact ⟨e, houts, by simpa using hplain.1, hplain.2.1, hin, hprop.1, hprop.2.1, hc⟩
        · cases h
  · cases h

theorem find?_of_nodup (hnd : (ins.map Access.conn).Nodup)
    (ha : a ∈ ins) : ins.find? (fun b => b.conn = a.conn) = some a := by
  induction ins with
  | nil => cases ha
  | cons b ins ih =>
    rw [map_cons, nodup_cons] at hnd
    obtain rfl | ha := mem_cons.1 ha
    · simp
    · rw [List.find?_cons_of_neg]
      · exact ih hnd.2 ha
      · intro hb
        have hb' : b.conn = a.conn := by simpa using hb
        exact hnd.1 (hb' ▸ mem_map_of_mem ha)

theorem find?_erase {x : String} (hx : x ≠ a.conn) :
    (ins.erase a).find? (fun b => b.conn = x) = ins.find? (fun b => b.conn = x) := by
  induction ins with
  | nil => rfl
  | cons b ins ih =>
    rw [erase_cons]
    split
    · rename_i hb
      obtain rfl := eq_of_beq hb
      rw [List.find?_cons_of_neg]
      simpa using hx.symm
    · rw [List.find?_cons, List.find?_cons, ih]

theorem shift_nil (lo : List ℚ) : shift lo [] = lo := by
  cases lo <;> rfl

/-- The connector of the read element holds it. -/
theorem env_feed (hnd : (ins.map Access.conn).Nodup) (ha : a ∈ ins)
    (s : Store) :
    ∃ f, Tasklet.env ins s a.conn = some f ∧
      f [] = s (.cell a.data (a.lo.map (SymExpr.eval s))) := by
  refine ⟨_, by rw [Tasklet.env, find?_of_nodup hnd ha]; rfl, ?_⟩
  show s (.cell a.data (shift _ [])) = _
  rw [shift_nil]

/-- Stores an assignment's value by the tasklet's only out-edge. -/
theorem run_assign (ins : List Access) (e : Access) (c : Code)
    (hnd : (ins.map Access.conn).Nodup) (s : Store) :
    (Tasklet.mk ins [e] [⟨[e.conn], c⟩] hnd).run fns s
      = (c.eval fns (Tasklet.env ins s)).map fun v =>
          update s (.cell e.data (e.lo.map (SymExpr.eval s)))
            (if e.wcr then s (.cell e.data (e.lo.map (SymExpr.eval s))) + v else v) := by
  unfold Tasklet.run
  simp only [Tasklet.runBody]
  cases c.eval fns (Tasklet.env ins s) with
  | none => rfl
  | some v => simp [Tasklet.writes, Tasklet.write]

/-- The rewritten tasklet adds what the original one stored beyond the element's value. -/
theorem run_converted {e feed : Access} (houts : t.outs = [e])
    (hwcr : e.wcr = false) (hfeed : feed ∈ t.ins) (hdata : feed.data = e.data)
    (hlo : feed.lo = e.lo)
    (hc : contribution t.body feed.conn e.conn = some c) (hfresh : feed.conn ∉ c.names)
    (s : Store) :
    (Tasklet.mk (t.ins.erase feed) [{ e with wcr := true }] [⟨[e.conn], c⟩]
      (nodup_erase t.conns feed)).run fns s = t.run fns s := by
  obtain ⟨op, l, r, hbody, hcases⟩ := contribution_spec hc
  obtain ⟨f, hf, hval⟩ := env_feed t.conns hfeed s
  have henv : c.eval fns (Tasklet.env (t.ins.erase feed) s) = c.eval fns (Tasklet.env t.ins s) := by
    apply eval_congr
    intro x hx
    have hne : x ≠ feed.conn := fun h' => hfresh (h' ▸ hx)
    rw [Tasklet.env, Tasklet.env, find?_erase hne]
  have ht : t = Tasklet.mk t.ins [e] [⟨[e.conn], .bin op l r⟩] t.conns := by
    cases t
    cases houts
    cases hbody
    rfl
  have hin : (Code.name feed.conn).eval fns (Tasklet.env t.ins s)
      = some (s (.cell e.data (e.lo.map (SymExpr.eval s)))) := by
    show (Tasklet.env t.ins s feed.conn).map (fun f => f []) = _
    rw [hf, Option.map_some, hval, hdata, hlo]
  have horig : t.run fns s = ((Code.bin op l r).eval fns (Tasklet.env t.ins s)).map fun v =>
      update s (.cell e.data (e.lo.map (SymExpr.eval s))) v := by
    conv_lhs => rw [ht, run_assign]
    simp only [hwcr, Bool.false_eq_true, if_false]
  refine (run_assign (t.ins.erase feed) { e with wcr := true } c
    (nodup_erase t.conns feed) s).trans ?_
  rw [henv, horig]
  show (c.eval fns (Tasklet.env t.ins s)).map (fun v => update s _ (s _ + v))
    = ((l.eval fns (Tasklet.env t.ins s)).bind fun a =>
        (r.eval fns (Tasklet.env t.ins s)).map fun b => op.apply a b).map _
  obtain ⟨rfl, ⟨rfl, rfl⟩ | ⟨rfl, rfl⟩⟩ | ⟨rfl, rfl, rfl⟩ := hcases
  · rw [hin]
    cases Code.eval fns (Tasklet.env t.ins s) c with
    | none => rfl
    | some v => rfl
  · rw [hin]
    show ((r.eval fns (Tasklet.env t.ins s)).map fun v => -v).map _ = _
    cases Code.eval fns (Tasklet.env t.ins s) r with
    | none => rfl
    | some v =>
      show some (update s _ (s _ + -v)) = some (update s _ (s _ - v))
      rw [sub_eq_add_neg]
  · rw [hin]
    cases Code.eval fns (Tasklet.env t.ins s) c with
    | none => rfl
    | some v =>
      show some (update s _ (s _ + v)) = some (update s _ (v + s _))
      rw [add_comm]

/-! ## The condition -/

/-- An element of a converted array. -/
def Loop.Converted (L : Loop) : Loc → Prop
  | .cell a _ => L.converts a = true
  | .sym _ => False

/-- The converted arrays are summed into and nothing else, by contributions that do not need the
value read. -/
structure Loop.OnlySums (L : Loop) : Prop where
  /-- No contribution reads the element's connector once more. -/
  contributions : ∀ t, .tasklet t ∈ L.body.nodes → ∀ name feed c, L.converts name = true →
    L.accumulation name t = some (feed, c) → feed.conn ∉ c.names
  /-- Every other write of a converted array by a tasklet sums. -/
  stores : ∀ t, .tasklet t ∈ L.body.nodes → ∀ o ∈ t.outs, L.converts o.data = true →
    o.wcr = true ∨ (L.accumulation o.data t).isSome = true
  /-- No other node writes one. -/
  others : ∀ o, .other o ∈ L.body.nodes → ∀ w ∈ o.writes, L.converts w.1 = false
  /-- No condition and no interstate assignment reads one. -/
  conditions : ∀ a ∈ L.body.conditionReads, L.converts a = false

/-- A converted tasklet adds exactly what the original one stored beyond the element's value. -/
theorem Loop.OnlySums.run_convertTasklet (h : L.OnlySums)
    (ht : .tasklet t ∈ L.body.nodes) (s : Store) :
    (L.convertTasklet t).run fns s = t.run fns s := by
  unfold Loop.convertTasklet
  split
  · rename_i e houts
    split
    · rename_i hconv
      split
      · rename_i feed c hacc
        obtain ⟨e', houts', hwcr, -, hfeed, hdata, hlo, hc⟩ := accumulation_spec hacc
        rw [houts] at houts'
        cases houts'
        exact run_converted houts hwcr hfeed hdata hlo hc
          (h.contributions t ht e.data feed c hconv hacc) s
      · rfl
    · rfl
  · rfl

/-- The edges of a converted tasklet: it reads no converted array, and sums into those it
writes. -/
theorem Loop.OnlySums.convertTasklet_edges (h : L.OnlySums)
    (ht : .tasklet t ∈ L.body.nodes) :
    (∀ a ∈ (L.convertTasklet t).ins, L.converts a.data = false)
    ∧ ∀ o ∈ (L.convertTasklet t).outs, L.converts o.data = true → o.wcr = true := by
  -- a read of a converted array is an accumulation's
  have hread : ∀ a ∈ t.ins, L.converts a.data = true →
      ∃ c, L.accumulation a.data t = some (a, c) := by
    intro a ha hconv
    have hall := (Bool.and_eq_true_iff.1 hconv).2
    have hfeed := all_eq_true.1 (all_eq_true.1 hall (.tasklet t) ht) a ha
    cases hacc : L.accumulation a.data t with
    | none => simp [hacc] at hfeed
    | some p =>
      obtain ⟨feed, c⟩ := p
      have : feed = a := by simpa [hacc] using hfeed
      exact ⟨c, by rw [this]⟩
  have hplain : ∀ a ∈ t.ins, (∀ c, L.accumulation a.data t ≠ some (a, c)) →
      L.converts a.data = false := by
    intro a ha hno
    cases hconv : L.converts a.data with
    | false => rfl
    | true =>
      obtain ⟨c, hc⟩ := hread a ha hconv
      exact absurd hc (hno c)
  have hstay : (∀ name c a, L.converts name = true → L.accumulation name t ≠ some (a, c)) →
      (∀ a ∈ t.ins, L.converts a.data = false)
        ∧ ∀ o ∈ t.outs, L.converts o.data = true → o.wcr = true := by
    intro hno
    refine ⟨fun a ha => ?_, fun o ho hconv => ?_⟩
    · cases hconv : L.converts a.data with
      | false => rfl
      | true =>
        obtain ⟨c, hc⟩ := hread a ha hconv
        exact absurd hc (hno _ c a hconv)
    · obtain hw | hacc := h.stores t ht o ho hconv
      · exact hw
      · obtain ⟨⟨a, c⟩, hc⟩ := Option.isSome_iff_exists.1 hacc
        exact absurd hc (hno _ c a hconv)
  unfold Loop.convertTasklet
  split
  · rename_i e houts
    have hname : ∀ name c a, L.accumulation name t = some (a, c) → name = e.data := by
      intro name c a hacc
      obtain ⟨e', houts', -, hdata, -⟩ := accumulation_spec hacc
      rw [houts] at houts'
      cases houts'
      exact hdata.symm
    split
    · rename_i hconv
      split
      · rename_i feed c hacc
        refine ⟨fun a ha => ?_, fun o ho _ => ?_⟩
        · have hin : a ∈ t.ins := mem_of_mem_erase ha
          cases hconv' : L.converts a.data with
          | false => rfl
          | true =>
            -- it would be the edge that was removed
            obtain ⟨c', hc'⟩ := hread a hin hconv'
            rw [hname _ _ _ hc', hacc] at hc'
            cases hc'
            exact absurd ha (List.Nodup.not_mem_erase (List.Nodup.of_map _ t.conns))
        · obtain rfl := mem_singleton.1 ho
          rfl
      · rename_i hnone
        apply hstay
        intro name c a _ hacc
        obtain rfl := hname name c a hacc
        rw [hnone] at hacc
        cases hacc
    · rename_i hconv
      apply hstay
      intro name c a hconv' hacc
      obtain rfl := hname name c a hacc
      exact hconv hconv'
  · rename_i houts
    apply hstay
    intro name c a _ hacc
    obtain ⟨e, he, -⟩ := accumulation_spec hacc
    exact houts e he

/-! ## Runs from stores that differ in the converted arrays -/

/-- The stores agree but for the converted arrays. -/
def Loop.Agree (L : Loop) (s t : Store) : Prop := ∀ l, ¬ L.Converted l → s l = t l

/-- Two runs do the same and add the same to the converted arrays. -/
structure Loop.Moved (L : Loop) (s s' t t' : Store) : Prop where
  agree : L.Agree s' t'
  added : ∀ l, L.Converted l → t' l - t l = s' l - s l

namespace Loop

open Function

variable {L : Loop}

variable {s t : Store} {u v u' : Store}

theorem Agree.sym (h : L.Agree s t) (x : String) : s (.sym x) = t (.sym x) :=
  h (.sym x) fun h' => h'

theorem Agree.cell (h : L.Agree s t) {a : String} (ha : L.converts a = false)
    (ix : List ℚ) : s (.cell a ix) = t (.cell a ix) := by
  apply h
  show ¬ L.converts a = true
  rw [ha]
  simp

theorem Agree.eval (h : L.Agree s t) (e : SymExpr) :
    SymExpr.eval s e = SymExpr.eval t e := by
  induction e with
  | const q => rfl
  | sym x => exact h.sym x
  | add a b iha ihb => simp only [SymExpr.eval, iha, ihb]
  | sub a b iha ihb => simp only [SymExpr.eval, iha, ihb]
  | mul a b iha ihb => simp only [SymExpr.eval, iha, ihb]

theorem Agree.env (h : L.Agree s t) {ins : List Access}
    (hins : ∀ a ∈ ins, L.converts a.data = false) : Tasklet.env ins s = Tasklet.env ins t := by
  funext c
  unfold Tasklet.env
  cases hfind : ins.find? fun a => a.conn = c with
  | none => rfl
  | some a =>
    show some _ = some _
    congr 1
    funext off
    have heval : SymExpr.eval s = SymExpr.eval t := by
      funext e
      exact h.eval e
    show s (.cell a.data (shift (a.lo.map (SymExpr.eval s)) off))
      = t (.cell a.data (shift (a.lo.map (SymExpr.eval t)) off))
    rw [h.cell (hins a (mem_of_find?_eq_some hfind)), heval]

theorem moved_refl (h : L.Agree s t) : L.Moved s s t t :=
  ⟨h, fun l _ => by rw [sub_self, sub_self]⟩

theorem Moved.trans {s s₁ s' t t₁ t' : Store} (h₁ : L.Moved s s₁ t t₁) (h₂ : L.Moved s₁ s' t₁ t') :
    L.Moved s s' t t' := by
  refine ⟨h₂.agree, fun l hl => ?_⟩
  have e₁ := h₁.added l hl
  have e₂ := h₂.added l hl
  linarith

theorem moved_writes (h : L.Agree s t) {env : Env} {outs : List Access}
    (houts : ∀ o ∈ outs, L.converts o.data = true → o.wcr = true)
    (huv : L.Agree u v) (hrun : Tasklet.writes s env u outs = some u') :
    ∃ v', Tasklet.writes t env v outs = some v' ∧ L.Moved u u' v v' := by
  induction outs generalizing u v with
  | nil =>
    cases hrun
    exact ⟨v, rfl, moved_refl huv⟩
  | cons o outs ih =>
    have hlo : o.lo.map (SymExpr.eval s) = o.lo.map (SymExpr.eval t) :=
      map_congr_left fun e _ => h.eval e
    unfold Tasklet.writes at hrun ⊢
    unfold Tasklet.write at hrun ⊢
    cases hval : env o.conn with
    | none => rw [hval] at hrun; cases hrun
    | some f =>
      rw [hval] at hrun
      simp only [Option.map_some, Option.bind_some] at hrun ⊢
      rw [← hlo]
      set l := Loc.cell o.data (o.lo.map (SymExpr.eval s)) with hl
      have hstep : L.Moved u (update u l (if o.wcr then u l + f [] else f []))
          v (update v l (if o.wcr then v l + f [] else f [])) := by
        refine ⟨fun k hk => ?_, fun k hk => ?_⟩
        · by_cases hkl : k = l
          · subst hkl
            rw [update_self, update_self, huv _ hk]
          · rw [update_of_ne hkl, update_of_ne hkl, huv k hk]
        · by_cases hkl : k = l
          · subst hkl
            have hw := houts o mem_cons_self hk
            rw [update_self, update_self, hw, if_pos rfl, if_pos rfl]
            ring
          · rw [update_of_ne hkl, update_of_ne hkl, sub_self, sub_self]
      obtain ⟨v', hv', hmoved⟩ :=
        ih (fun o' ho' => houts o' (mem_cons_of_mem _ ho')) hstep.agree hrun
      exact ⟨v', hv', hstep.trans hmoved⟩

theorem moved_tasklet {t : Tasklet} (hins : ∀ a ∈ t.ins, L.converts a.data = false)
    (houts : ∀ o ∈ t.outs, L.converts o.data = true → o.wcr = true)
    (huv : L.Agree u v) (hrun : t.run fns u = some u') :
    ∃ v', t.run fns v = some v' ∧ L.Moved u u' v v' := by
  unfold Tasklet.run at hrun ⊢
  rw [huv.env hins] at hrun
  cases hbody : Tasklet.runBody fns (Tasklet.env t.ins v) t.body with
  | none => rw [hbody] at hrun; cases hrun
  | some env =>
    rw [hbody] at hrun
    exact moved_writes huv houts huv hrun

theorem moved_other {o : Other} (hreads : ∀ a ∈ o.reads, L.converts a = false)
    (hwrites : ∀ w ∈ o.writes, L.converts w.1 = false) {u v : Store} (huv : L.Agree u v) :
    L.Moved u (o.run u) v (o.run v) := by
  refine ⟨fun l hl => ?_, fun l hl => ?_⟩
  · exact o.sound u v huv.sym (fun a ha ix => huv.cell (hreads a ha) ix) l (huv l hl)
  · have hframe : ∀ a ∈ o.writes.map Prod.fst, ∀ ix, l ≠ .cell a ix := by
      rintro a ha ix rfl
      obtain ⟨w, hw, rfl⟩ := mem_map.1 ha
      rw [Converted, hwrites w hw] at hl
      cases hl
    rw [o.frame u l hframe, o.frame v l hframe, sub_self, sub_self]

/-- One node of the loop. -/
theorem OnlySums.node (h : L.OnlySums) {n : Node} (hn : n ∈ L.body.nodes)
    (huv : L.Agree u v) (hrun : n.run fns u = some u') :
    ∃ v', n.run fns v = some v' ∧ L.Moved u u' v v' := by
  cases n with
  | tasklet t =>
    have hrun' : t.run fns u = some u' := hrun
    rw [← h.run_convertTasklet hn] at hrun'
    obtain ⟨hins, houts⟩ := h.convertTasklet_edges hn
    obtain ⟨v', hv', hmoved⟩ := moved_tasklet hins houts huv hrun'
    rw [h.run_convertTasklet hn] at hv'
    exact ⟨v', hv', hmoved⟩
  | other o =>
    cases hrun
    refine ⟨o.run v, rfl, moved_other (fun a ha => ?_) (h.others o hn) huv⟩
    cases hconv : L.converts a with
    | false => rfl
    | true =>
      have hall := (Bool.and_eq_true_iff.1 hconv).2
      have hreads := all_eq_true.1 hall (.other o) hn
      simp only [readsFeed, Bool.not_eq_true', contains_eq_mem, decide_eq_false_iff_not] at hreads
      exact absurd ha hreads

theorem OnlySums.nodes (h : L.OnlySums) {ns : List Node} (hns : ∀ n ∈ ns, n ∈ L.body.nodes)
    (huv : L.Agree u v) (hrun : runNodes fns ns u = some u') :
    ∃ v', runNodes fns ns v = some v' ∧ L.Moved u u' v v' := by
  induction ns generalizing u v with
  | nil =>
    cases hrun
    exact ⟨v, rfl, moved_refl huv⟩
  | cons n ns ih =>
    unfold runNodes at hrun ⊢
    obtain ⟨u₁, hu₁, hrest⟩ := Option.bind_eq_some_iff.1 hrun
    obtain ⟨v₁, hv₁, hmoved₁⟩ := h.node (hns n mem_cons_self) huv hu₁
    obtain ⟨v', hv', hmoved⟩ := ih (fun m hm => hns m (mem_cons_of_mem _ hm)) hmoved₁.agree hrest
    refine ⟨v', ?_, hmoved₁.trans hmoved⟩
    rw [hv₁]
    exact hv'

theorem Agree.reading (h : L.Agree s t) {r : Reading}
    (hr : ∀ a ∈ r.reads, L.converts a = false) : r.value s = r.value t :=
  r.sound s t h.sym fun a ha ix => h.cell (hr a ha) ix

/-- A part of the body: what it does to the rest, and what it adds, does not depend on the
converted arrays. -/
theorem OnlySums.moved (h : L.OnlySums) {b : Body} {u u' : Store} (hrun : Exec fns b u u')
    (hnodes : ∀ n ∈ b.nodes, n ∈ L.body.nodes)
    (hconds : ∀ a ∈ b.conditionReads, a ∈ L.body.conditionReads) {v : Store} (huv : L.Agree u v) :
    ∃ v', Exec fns b v v' ∧ L.Moved u u' v v' := by
  induction hrun generalizing v with
  | state hns =>
    obtain ⟨v', hv', hmoved⟩ := h.nodes hnodes huv hns
    exact ⟨v', .state hv', hmoved⟩
  | @assign x r s =>
    refine ⟨_, .assign, ?_⟩
    have hval : r.value s = r.value v := huv.reading fun a ha => h.conditions a (hconds a ha)
    refine ⟨fun l hl => ?_, fun l hl => ?_⟩
    · by_cases hlx : l = .sym x
      · subst hlx
        rw [update_self, update_self, hval]
      · rw [update_of_ne hlx, update_of_ne hlx, huv l hl]
    · have hlx : l ≠ .sym x := by
        rintro rfl
        exact hl
      rw [update_of_ne hlx, update_of_ne hlx, sub_self, sub_self]
  | @seq a b s s₁ s' _ _ iha ihb =>
    obtain ⟨v₁, hv₁, hmoved₁⟩ := iha (fun n hn => hnodes n (mem_append_left _ hn))
      (fun c hc => hconds c (mem_append_left _ hc)) huv
    obtain ⟨v', hv', hmoved⟩ := ihb (fun n hn => hnodes n (mem_append_right _ hn))
      (fun c hc => hconds c (mem_append_right _ hc)) hmoved₁.agree
    exact ⟨v', .seq hv₁ hv', hmoved₁.trans hmoved⟩
  | @ifTrue c a b s s' hc _ ih =>
    have hval : c.value s = c.value v := huv.reading fun x hx =>
      h.conditions x (hconds x (mem_append_left _ (mem_append_left _ hx)))
    obtain ⟨v', hv', hmoved⟩ := ih (fun n hn => hnodes n (mem_append_left _ hn))
      (fun x hx => hconds x (mem_append_left _ (mem_append_right _ hx))) huv
    exact ⟨v', .ifTrue (hval ▸ hc) hv', hmoved⟩
  | @ifFalse c a b s s' hc _ ih =>
    have hval : c.value s = c.value v := huv.reading fun x hx =>
      h.conditions x (hconds x (mem_append_left _ (mem_append_left _ hx)))
    obtain ⟨v', hv', hmoved⟩ := ih (fun n hn => hnodes n (mem_append_right _ hn))
      (fun x hx => hconds x (mem_append_right _ hx)) huv
    exact ⟨v', .ifFalse (hval ▸ hc) hv', hmoved⟩
  | @done c b s hc =>
    have hval : c.value s = c.value v := huv.reading fun x hx =>
      h.conditions x (hconds x (mem_append_left _ hx))
    exact ⟨v, .done (hval ▸ hc), moved_refl huv⟩
  | @turn c b s s₁ s' hc _ _ ihb ihrest =>
    have hval : c.value s = c.value v := huv.reading fun x hx =>
      h.conditions x (hconds x (mem_append_left _ hx))
    obtain ⟨v₁, hv₁, hmoved₁⟩ := ihb hnodes
      (fun x hx => hconds x (mem_append_right _ hx)) huv
    obtain ⟨v', hv', hmoved⟩ := ihrest hnodes hconds hmoved₁.agree
    exact ⟨v', .turn (hval ▸ hc) hv₁ hv', hmoved₁.trans hmoved⟩

end Loop

/-! ## The rewritten body -/

theorem Loop.OnlySums.exec (h : L.OnlySums) {b : Body} {u u' : Store}
    (hrun : Exec fns b u u') (hnodes : ∀ n ∈ b.nodes, n ∈ L.body.nodes) :
    Exec fns (b.mapNodes L.convertNode) u u' := by
  induction hrun with
  | @state ns s s' hns =>
    refine .state ?_
    have hsame : ∀ ms : List Node, (∀ n ∈ ms, n ∈ L.body.nodes) → ∀ s,
        runNodes fns (ms.map L.convertNode) s = runNodes fns ms s := by
      intro ms
      induction ms with
      | nil => exact fun _ _ => rfl
      | cons n ms ih =>
        intro hms s
        have hnode : (L.convertNode n).run fns s = n.run fns s := by
          cases n with
          | tasklet t => exact h.run_convertTasklet (hms _ mem_cons_self) s
          | other o => rfl
        have hrest : runNodes fns (ms.map L.convertNode) = runNodes fns ms := by
          funext s
          exact ih (fun m hm => hms m (mem_cons_of_mem _ hm)) s
        show ((L.convertNode n).run fns s).bind _ = (n.run fns s).bind _
        rw [hnode, hrest]
    rw [hsame ns hnodes]
    exact hns
  | assign => exact .assign
  | seq _ _ iha ihb =>
    exact .seq (iha fun n hn => hnodes n (mem_append_left _ hn))
      (ihb fun n hn => hnodes n (mem_append_right _ hn))
  | ifTrue hc _ ih => exact .ifTrue hc (ih fun n hn => hnodes n (mem_append_left _ hn))
  | ifFalse hc _ ih => exact .ifFalse hc (ih fun n hn => hnodes n (mem_append_right _ hn))
  | done hc => exact .done hc
  | turn hc _ _ ihb ihrest => exact .turn hc (ihb hnodes) (ihrest hnodes)

theorem Exec.deterministic {b : Body} {u u₁ u₂ : Store} (h₁ : Exec fns b u u₁)
    (h₂ : Exec fns b u u₂) : u₁ = u₂ := by
  induction h₁ generalizing u₂ with
  | state h =>
    cases h₂ with
    | state h' => exact Option.some.inj (h.symm.trans h')
  | assign => cases h₂ with
    | assign => rfl
  | seq _ _ iha ihb =>
    cases h₂ with
    | seq ha hb =>
      obtain rfl := iha ha
      exact ihb hb
  | ifTrue hc _ ih =>
    cases h₂ with
    | ifTrue _ h => exact ih h
    | ifFalse hc' _ => exact absurd hc' hc
  | ifFalse hc _ ih =>
    cases h₂ with
    | ifTrue hc' _ => exact absurd hc hc'
    | ifFalse _ h => exact ih h
  | done hc =>
    cases h₂ with
    | done => rfl
    | turn hc' _ _ => exact absurd hc hc'
  | turn hc _ _ ihb ihrest =>
    cases h₂ with
    | done hc' => exact absurd hc' hc
    | turn _ hb hrest =>
      obtain rfl := ihb hb
      exact ihrest hrest

end Accumulations
