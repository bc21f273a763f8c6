/-
# The converted loop in any order

Where the iterations are independent but for the converted arrays (`Footprints`), each of them does
from any store of the run what it does from the store before the loop; what it adds to a converted
array is summed over the iterations, and a sum has no order (`accumulationsToWcr_keeps`).
-/
import Mathlib.Algebra.BigOperators.Group.List.Lemmas
import DaceFortran.Accumulations.SumsCommute

open List

namespace Accumulations

open Function

variable {fns : String → ℚ → ℚ} {L : Loop}

/-! ## Independent iterations -/

/-- The iterations of the loop are independent but for the converted arrays: each reads and writes
locations that no other one writes; what is neither (the loop variable, the symbols an iteration
assigns before it reads them) is of no use after it. -/
structure Footprints (fns : String → ℚ → ℚ) (L : Loop) (iters : List ℚ) where
  temps : Loc → Prop
  writes : ℚ → Loc → Prop
  touches : ℚ → Loc → Prop
  frame : ∀ i ∈ iters, ∀ s s', L.Iteration fns i s s' → ∀ l, ¬ writes i l → ¬ temps l →
    ¬ L.Converted l → s' l = s l
  sound : ∀ i ∈ iters, ∀ s s' t, L.Iteration fns i s s' → (∀ l, touches i l → s l = t l) →
    (∀ l, L.Converted l → s l = t l) →
    ∃ t', L.Iteration fns i t t' ∧ (∀ l, writes i l → t' l = s' l)
      ∧ ∀ l, L.Converted l → t' l = s' l
  apart : ∀ i ∈ iters, ∀ j ∈ iters, i ≠ j → ∀ l, writes i l → ¬ touches j l ∧ ¬ writes j l
  writes_lasting : ∀ i l, writes i l → ¬ temps l ∧ ¬ L.Converted l
  touches_lasting : ∀ i l, touches i l → ¬ temps l
  converted_lasting : ∀ l, L.Converted l → ¬ temps l

variable {iters : List ℚ}

variable {i : ℚ} {finished : List ℚ} {s c : Store} {u : ℚ → Store} {is : List ℚ}

/-- One iteration from two stores: the same writes, the same added. -/
theorem Footprints.iteration (F : Footprints fns L iters) (honly : L.OnlySums)
    (hi : i ∈ iters) {s s' t : Store} (hrun : L.Iteration fns i s s')
    (htouch : ∀ l, F.touches i l → ¬ L.Converted l → s l = t l) :
    ∃ t', L.Iteration fns i t t' ∧ (∀ l, F.writes i l → t' l = s' l)
      ∧ ∀ l, L.Converted l → t' l - t l = s' l - s l := by
  classical
  -- the other store with this one's converted arrays
  let m : Store := fun l => if L.Converted l then s l else t l
  obtain ⟨m', hm', hwrites, hconv⟩ := F.sound i hi s s' m hrun
    (fun l hl => by
      by_cases hc : L.Converted l
      · exact (if_pos hc).symm
      · exact (htouch l hl hc).trans (if_neg hc).symm)
    fun l hc => (if_pos hc).symm
  have hagree : L.Agree (update m (.sym L.var) i) (update t (.sym L.var) i) := by
    intro l hl
    by_cases hx : l = .sym L.var
    · subst hx
      rw [update_self, update_self]
    · rw [update_of_ne hx, update_of_ne hx]
      exact if_neg hl
  obtain ⟨t', ht', hmoved⟩ := honly.moved hm' (fun _ h => h) (fun _ h => h) hagree
  refine ⟨t', ht', fun l hl => ?_, fun l hc => ?_⟩
  · rw [← hmoved.agree l (F.writes_lasting i l hl).2, hwrites l hl]
  · have hx : l ≠ .sym L.var := by
      rintro rfl
      exact hc
    have hadded := hmoved.added l hc
    rw [update_of_ne hx, update_of_ne hx, hconv l hc] at hadded
    rw [hadded]
    show s' l - (if L.Converted l then s l else t l) = s' l - s l
    rw [if_pos hc]

/-! ## Iterations one after another -/

/-- What the done iterations have left alone. -/
def Footprints.Near (F : Footprints fns L iters) (s : Store) (finished : List ℚ) (c : Store) :
    Prop :=
  ∀ l, ¬ F.temps l → ¬ L.Converted l → (∀ i ∈ finished, ¬ F.writes i l) → c l = s l

/-- A store after some iterations, each of which did what it does alone (`u i`). -/
structure Footprints.Combined (F : Footprints fns L iters) (s : Store) (u : ℚ → Store)
    (finished : List ℚ) (c : Store) : Prop where
  near : F.Near s finished c
  written : ∀ i ∈ finished, ∀ l, F.writes i l → c l = u i l
  summed : ∀ l, L.Converted l → c l = s l + (finished.map fun i => u i l - s l).sum

variable {F : Footprints fns L iters}

/-- An iteration that is still to come finds what it touches as it was. -/
theorem Footprints.Near.touches
    (h : F.Near s finished c) (hi : i ∈ iters) (hfin : ∀ j ∈ finished, j ∈ iters)
    (hnot : i ∉ finished) : ∀ l, F.touches i l → ¬ L.Converted l → c l = s l := by
  intro l hl hc
  refine h l (F.touches_lasting i l hl) hc fun j hj hw => ?_
  have hne : j ≠ i := fun h' => hnot (h' ▸ hj)
  exact (F.apart j (hfin j hj) i hi hne l hw).1 hl

theorem Footprints.Near.step {s c c' : Store}
    (h : F.Near s finished c) (hi : i ∈ iters) (hrun : L.Iteration fns i c c') :
    F.Near s (finished ++ [i]) c' := by
  intro l ht hc hw
  have hfin : ∀ j ∈ finished, ¬ F.writes j l := fun j hj => hw j (mem_append_left _ hj)
  have hi' : ¬ F.writes i l := hw i (mem_append_right _ mem_cons_self)
  rw [F.frame i hi c c' hrun l hi' ht hc]
  exact h l ht hc hfin

/-- What each iteration of a run does alone. -/
theorem Footprints.solo (F : Footprints fns L iters) (honly : L.OnlySums) {s : Store}
    {finished rest : List ℚ} (hnd : (finished ++ rest).Nodup)
    (hsub : ∀ i ∈ finished ++ rest, i ∈ iters) {c s' : Store} (hnear : F.Near s finished c)
    (hruns : L.Runs fns rest c s') : ∀ i ∈ rest, ∃ u, L.Iteration fns i s u := by
  induction rest generalizing finished c with
  | nil => simp
  | cons i rest ih =>
    obtain ⟨c₁, hc₁, hrest⟩ := hruns
    have hi : i ∈ iters := hsub i (mem_append_right _ mem_cons_self)
    have hfin : ∀ j ∈ finished, j ∈ iters := fun j hj => hsub j (mem_append_left _ hj)
    have hnot : i ∉ finished := fun h' =>
      (nodup_append.1 hnd).2.2 i h' i mem_cons_self rfl
    have hassoc : finished ++ i :: rest = finished ++ [i] ++ rest := by simp
    rw [hassoc] at hnd hsub
    intro j hj
    obtain rfl | hj := mem_cons.1 hj
    · obtain ⟨u, hu, -⟩ := F.iteration honly hi hc₁ (hnear.touches hi hfin hnot)
      exact ⟨u, hu⟩
    · exact ih hnd hsub (hnear.step hi hc₁) hrest j hj

theorem Footprints.Combined.step (honly : L.OnlySums)
    (h : F.Combined s u finished c) (hi : i ∈ iters)
    (hfin : ∀ j ∈ finished, j ∈ iters) (hnot : i ∉ finished) (hu : L.Iteration fns i s (u i)) :
    ∃ c', L.Iteration fns i c c' ∧ F.Combined s u (finished ++ [i]) c' := by
  have htouch := h.near.touches hi hfin hnot
  obtain ⟨c', hc', hwrites, hadded⟩ := F.iteration honly hi hu fun l hl hc => (htouch l hl hc).symm
  refine ⟨c', hc', h.near.step hi hc', fun j hj l hl => ?_, fun l hc => ?_⟩
  · obtain hj | hj := mem_append.1 hj
    · have hne : j ≠ i := fun h' => hnot (h' ▸ hj)
      have hlast := F.writes_lasting j l hl
      rw [F.frame i hi c c' hc' l (F.apart j (hfin j hj) i hi hne l hl).2 hlast.1 hlast.2]
      exact h.written j hj l hl
    · obtain rfl := mem_singleton.1 hj
      exact hwrites l hl
  · have e₁ := hadded l hc
    have e₂ := h.summed l hc
    rw [map_append, sum_append, map_singleton, sum_singleton]
    linarith

theorem Footprints.Combined.runs (honly : L.OnlySums)
    {finished rest : List ℚ} (hnd : (finished ++ rest).Nodup)
    (hsub : ∀ i ∈ finished ++ rest, i ∈ iters) (h : F.Combined s u finished c)
    (hu : ∀ i ∈ rest, L.Iteration fns i s (u i)) :
    ∃ c', L.Runs fns rest c c' ∧ F.Combined s u (finished ++ rest) c' := by
  induction rest generalizing finished c with
  | nil =>
    rw [append_nil]
    exact ⟨c, rfl, h⟩
  | cons i rest ih =>
    have hnot : i ∉ finished := fun h' =>
      (nodup_append.1 hnd).2.2 i h' i mem_cons_self rfl
    obtain ⟨c₁, hc₁, h₁⟩ := h.step honly (hsub i (mem_append_right _ mem_cons_self))
      (fun j hj => hsub j (mem_append_left _ hj)) hnot (hu i mem_cons_self)
    have hassoc : finished ++ i :: rest = finished ++ [i] ++ rest := by simp
    rw [hassoc] at hnd hsub ⊢
    obtain ⟨c', hc', h'⟩ := ih hnd hsub h₁ fun j hj => hu j (mem_cons_of_mem _ hj)
    exact ⟨c', ⟨c₁, hc₁, hc'⟩, h'⟩

theorem Footprints.combined_start (F : Footprints fns L iters) (s : Store) (u : ℚ → Store) :
    F.Combined s u [] s where
  near := fun _ _ _ _ => rfl
  written := by simp
  summed := by simp

/-- The order leaves no trace. -/
theorem Footprints.Combined.unique {s c c' : Store}
    {order order' : List ℚ} (h : F.Combined s u order c) (h' : F.Combined s u order' c')
    (hperm : order'.Perm order) : ∀ l, ¬ F.temps l → c' l = c l := by
  intro l ht
  by_cases hc : L.Converted l
  · rw [h.summed l hc, h'.summed l hc, (hperm.map fun i => u i l - s l).sum_eq]
  · by_cases hw : ∃ i ∈ order, F.writes i l
    · obtain ⟨i, hi, hl⟩ := hw
      rw [h.written i hi l hl, h'.written i (hperm.mem_iff.2 hi) l hl]
    · have hno : ∀ i ∈ order, ¬ F.writes i l := fun i hi hl => hw ⟨i, hi, hl⟩
      rw [h.near l ht hc hno, h'.near l ht hc fun i hi => hno i (hperm.mem_iff.1 hi)]

/-! ## The loop -/

theorem Loop.Runs.deterministic {s s₁ s₂ : Store} (h₁ : L.Runs fns is s s₁)
    (h₂ : L.Runs fns is s s₂) : s₁ = s₂ := by
  induction is generalizing s with
  | nil => exact Eq.trans h₁ (Eq.symm h₂)
  | cons i is ih =>
    obtain ⟨c, hc, hrest⟩ := h₁
    obtain ⟨c', hc', hrest'⟩ := h₂
    obtain rfl := Exec.deterministic hc hc'
    exact ih hrest hrest'

theorem Loop.OnlySums.runs (h : L.OnlySums) {s s' : Store}
    (hrun : L.Runs fns is s s') : L.accumulationsToWcr.Runs fns is s s' := by
  induction is generalizing s with
  | nil => exact hrun
  | cons i is ih =>
    obtain ⟨c, hc, hrest⟩ := hrun
    exact ⟨c, h.exec hc fun _ hn => hn, ih hrest⟩

/-- The rewritten loop, its iterations in any order, leaves what the original one left, each
converted tasklet doing what the original one did. -/
def Loop.Keeps (fns : String → ℚ → ℚ) (L : Loop) (iters : List ℚ) (temps : Loc → Prop) : Prop :=
  (∀ s s', L.Runs fns iters s s' → ∀ order : List ℚ, order.Perm iters →
    (∃ s'', L.accumulationsToWcr.Runs fns order s s'')
    ∧ ∀ s'', L.accumulationsToWcr.Runs fns order s s'' → ∀ l, ¬ temps l → s'' l = s' l)
  ∧ ∀ t, .tasklet t ∈ L.body.nodes → ∀ s, (L.convertTasklet t).run fns s = t.run fns s

/-- The run of a body that has no inner loop. -/
def Body.run (fns : String → ℚ → ℚ) : Body → Store → Option Store
  | .state ns, s => runNodes fns ns s
  | .assign x v, s => some (Function.update s (.sym x) (v.value s))
  | .seq a b, s => (a.run fns s).bind (b.run fns)
  | .branch c a b, s => if c.value s = 0 then b.run fns s else a.run fns s
  | .loop _ _, _ => none

theorem Body.exec_of_run {b : Body} {s s' : Store} (h : b.run fns s = some s') :
    Exec fns b s s' := by
  induction b generalizing s s' with
  | state ns => exact .state h
  | assign x v =>
    obtain rfl := Option.some.inj h
    exact .assign
  | seq a b iha ihb =>
    obtain ⟨c, hc, hrest⟩ := Option.bind_eq_some_iff.1 h
    exact .seq (iha hc) (ihb hrest)
  | branch c a b iha ihb =>
    rw [Body.run] at h
    split_ifs at h with hc
    · exact .ifFalse hc (ihb h)
    · exact .ifTrue hc (iha h)
  | loop c b _ => cases h

/-- The iterations of a loop whose body has no inner loop. -/
def Loop.run (fns : String → ℚ → ℚ) (L : Loop) : List ℚ → Store → Option Store
  | [], s => some s
  | i :: is, s => (L.body.run fns (Function.update s (.sym L.var) i)).bind (L.run fns is)

theorem Loop.runs_of_run {s s' : Store} (h : L.run fns is s = some s') : L.Runs fns is s s' := by
  induction is generalizing s with
  | nil => exact (Option.some.inj h).symm
  | cons i is ih =>
    obtain ⟨c, hc, hrest⟩ := Option.bind_eq_some_iff.1 h
    exact ⟨c, Body.exec_of_run hc, ih hrest⟩

/-- `target = c_in op e` on one element, `e` read by a second connector. -/
def changeBy (op : Op) (array : String) (ix : SymExpr) (src : String) (jx : SymExpr) : Tasklet where
  ins := [⟨"a", array, [ix], true, false⟩, ⟨"b", src, [jx], true, false⟩]
  outs := [⟨"out", array, [ix], true, false⟩]
  body := [⟨["out"], .bin op (.name "a") (.name "b")⟩]
  conns := by simp

theorem run_changeBy (op : Op) (array : String) (ix : SymExpr) (src : String) (jx : SymExpr)
    (s : Store) :
    (changeBy op array ix src jx).run fns s
      = some (update s (.cell array [ix.eval s])
          (op.apply (s (.cell array [ix.eval s])) (s (.cell src [jx.eval s])))) := by
  refine (run_assign _ ⟨"out", array, [ix], true, false⟩ _ _ s).trans ?_
  simp [Code.eval, Tasklet.env, shift]

/-- The flux of a face leaves one cell and enters the next. -/
def faces : List Node :=
  [.tasklet (changeBy .add "rhs" (.sym "j") "flux" (.sym "j")),
    .tasklet (changeBy .sub "rhs" (.add (.sym "j") (.const 1)) "flux" (.sym "j"))]

def faceLoop : Loop := ⟨"j", .state faces⟩

theorem converted_faceLoop {l : Loc} (h : faceLoop.Converted l) : ∃ ix, l = .cell "rhs" ix := by
  cases l with
  | sym x => cases h
  | cell a ix =>
    refine ⟨ix, ?_⟩
    by_contra hne
    have ha : a ≠ "rhs" := fun h' => hne (by rw [h'])
    have hconv : faceLoop.converts a = true := h
    have hany := (Bool.and_eq_true_iff.1 hconv).1
    obtain ⟨n, hn, hsome⟩ := any_eq_true.1 hany
    have hn : n ∈ faces := hn
    simp only [faces, mem_cons, not_mem_nil, or_false] at hn
    obtain rfl | rfl := hn <;> simp [Loop.accumulation, changeBy, ha.symm] at hsome

theorem onlySums_faceLoop : faceLoop.OnlySums where
  contributions := by
    intro t ht name feed c hconv hacc
    obtain ⟨ix, hix⟩ := converted_faceLoop (l := .cell name []) hconv
    cases hix
    have ht' : Node.tasklet t ∈ faces := ht
    simp only [faces, mem_cons, not_mem_nil, or_false, Node.tasklet.injEq] at ht'
    obtain rfl | rfl := ht'
    · have hval : faceLoop.accumulation "rhs" (changeBy .add "rhs" (.sym "j") "flux" (.sym "j"))
          = some (⟨"a", "rhs", [.sym "j"], true, false⟩, .name "b") := by decide
      rw [hval] at hacc
      cases hacc
      decide
    · have hval : faceLoop.accumulation "rhs"
            (changeBy .sub "rhs" (.add (.sym "j") (.const 1)) "flux" (.sym "j"))
          = some (⟨"a", "rhs", [.add (.sym "j") (.const 1)], true, false⟩, .neg (.name "b")) := by
        decide
      rw [hval] at hacc
      cases hacc
      decide
  stores := by
    intro t ht o ho _
    right
    have ht' : Node.tasklet t ∈ faces := ht
    simp only [faces, mem_cons, not_mem_nil, or_false, Node.tasklet.injEq] at ht'
    obtain rfl | rfl := ht' <;>
      (obtain rfl := mem_singleton.1 ho
       decide)
  others := by
    intro o ho
    have ho' : Node.other o ∈ faces := ho
    simp [faces] at ho'
  conditions := by
    intro a ha
    cases ha

/-- One iteration's result. -/
def faceStep (i : ℚ) (s : Store) : Store :=
  let s₁ := Function.update (Function.update s (.sym "j") i) (.cell "rhs" [i])
    (s (.cell "rhs" [i]) + s (.cell "flux" [i]))
  Function.update s₁ (.cell "rhs" [i + 1]) (s₁ (.cell "rhs" [i + 1]) - s (.cell "flux" [i]))

theorem iteration_faceLoop (i : ℚ) (s s' : Store) :
    faceLoop.Iteration fns i s s' ↔ s' = faceStep i s := by
  have hrun : runNodes fns faces (update s (.sym "j") i) = some (faceStep i s) := by
    simp only [faces, runNodes, Node.run, run_changeBy, Option.bind_some]
    simp [faceStep, SymExpr.eval, Op.apply]
  constructor
  · intro h
    have h' : Exec fns (.state faces) (update s (.sym "j") i) s' := h
    cases h' with
    | state h' => exact Option.some.inj (h'.symm.trans hrun)
  · rintro rfl
    exact .state hrun

/-- An iteration reads its face and writes nothing but cells. -/
def faceFootprints : Footprints fns faceLoop [0, 1, 2] where
  temps := fun l => l = .sym "j"
  writes := fun _ _ => False
  touches := fun i l => l = .cell "flux" [i]
  frame := by
    intro i _ s s' h l _ ht hc
    obtain rfl := (iteration_faceLoop i s s').1 h
    have hrhs : ∀ ix, l ≠ .cell "rhs" ix := by
      rintro ix rfl
      exact hc (by decide : faceLoop.converts "rhs" = true)
    simp [faceStep, Function.update_of_ne (hrhs _), Function.update_of_ne ht]
  sound := by
    intro i _ s s' t h htouch hconv
    obtain rfl := (iteration_faceLoop i s s').1 h
    refine ⟨faceStep i t, (iteration_faceLoop i t _).2 rfl, fun l hl => hl.elim, fun l hc => ?_⟩
    obtain ⟨ix, rfl⟩ := converted_faceLoop hc
    have hflux := htouch _ rfl
    have hcell : ∀ jx, s (.cell "rhs" jx) = t (.cell "rhs" jx) := fun jx =>
      hconv _ (by decide : faceLoop.converts "rhs" = true)
    simp only [faceStep, Function.update_apply, hflux, hcell]
  apart := fun _ _ _ _ _ _ h => h.elim
  writes_lasting := fun _ _ h => h.elim
  touches_lasting := by
    rintro i l rfl
    simp
  converted_lasting := by
    intro l hc
    obtain ⟨ix, rfl⟩ := converted_faceLoop hc
    simp

/-- The same loop, which marks the face whose cell is not 0 after it. -/
def markedFaces : Loop := ⟨"j", .seq (.state faces) (.branch
  ⟨["rhs"], fun s => s (.cell "rhs" [s (.sym "j")]), fun s t hsym hcell => by
    rw [hsym, hcell "rhs" (by simp)]⟩
  (.state [.tasklet ⟨[⟨"b", "flux", [.sym "j"], true, false⟩],
    [⟨"out", "seen", [.sym "j"], true, false⟩], [⟨["out"], .name "b"⟩], by decide⟩])
  (.state []))⟩

end Accumulations
