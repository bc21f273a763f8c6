/-
# `make_practically_constant_global_vars_constants` is sound

No run changes a variable that the pass turns into a constant, as long as the
variables it turns are not defined or passed in a form the scan does not look at;
and the other entities of a split declaration keep theirs, as long as the
declarations are `Splittable` (**`makeGlobalConstants_sound`**).  Without these
conditions neither holds.
-/
import DaceFortran.GlobalConstants.EntityFate
import DaceFortran.Procedures.UntouchedGlobals
import DaceFortran.Lib.Fallible

open Procedures Fallible List

namespace GlobalConstants

variable {L V : Type} {lit : L → V} {tolerate : Bool} {p : Program L} {order : List Spec}

/-! ## What the scan finds -/

variable {l l' : List Spec} {d : Declaration}

theorem mem_discard {s v : Spec} : v ∈ discard s l ↔ v ∈ l ∧ v ≠ s := by
  simp [discard]

/-- An assignment only discards, and it discards its target. -/
theorem scanAssignment_ok {lhs : Expr L}
    (h : scanAssignment l lhs = .ok l') :
    l'.Sublist l ∧ ∀ n v, lhs = .name n → lhs.root = some v → v ∉ l' := by
  unfold scanAssignment at h
  split at h
  · obtain rfl := Except.ok.inj h
    refine ⟨filter_sublist, ?_⟩
    rintro n v - hroot
    obtain rfl := Option.some.inj hroot
    exact fun hmem => (mem_discard.mp hmem).2 rfl
  · obtain rfl := Except.ok.inj h
    refine ⟨filter_sublist, ?_⟩
    rintro n v - hroot
    cases hroot
  · obtain rfl := Except.ok.inj h
    refine ⟨List.Sublist.refl _, ?_⟩
    rintro n v - hroot
    cases hroot
  · cases h
  case h_5 hne =>
    obtain rfl := Except.ok.inj h
    refine ⟨List.Sublist.refl _, ?_⟩
    rintro n v rfl -
    exact absurd rfl (hne n)

/-- An argument only discards, and one without a keyword that is a name is discarded. -/
theorem scanArgument_ok {a : Option String × Expr L}
    (h : scanArgument tolerate l a = .ok l') :
    l'.Sublist l ∧ ∀ n v, a = (none, .name n) → (Expr.name n : Expr L).root = some v → v ∉ l' := by
  unfold scanArgument at h
  split at h
  · obtain rfl := Except.ok.inj h
    refine ⟨filter_sublist, ?_⟩
    intro n v hn hroot
    obtain rfl := Expr.name.inj (Prod.mk.inj hn).2
    obtain rfl := Option.some.inj hroot
    exact fun hmem => (mem_discard.mp hmem).2 rfl
  · obtain rfl := Except.ok.inj h
    refine ⟨filter_sublist, ?_⟩
    intro n v hn hroot
    obtain rfl := Expr.name.inj (Prod.mk.inj hn).2
    cases hroot
  · split_ifs at h
    obtain rfl := Except.ok.inj h
    refine ⟨List.Sublist.refl _, ?_⟩
    intro n v hn hroot
    obtain rfl := Expr.name.inj (Prod.mk.inj hn).2
    cases hroot
  · cases h
  case h_5 hne =>
    obtain rfl := Except.ok.inj h
    refine ⟨List.Sublist.refl _, ?_⟩
    rintro n v rfl -
    exact absurd rfl (hne n)

/-- **The scan**: what it leaves are candidates that no statement assigns as a whole and no
walked call is passed by name and position. -/
theorem neverAssigned_scanned {s : List Spec} (h : neverAssigned tolerate p = .ok s) :
    s.Sublist (candidates p) ∧ Scanned p.code (· ∈ s) := by
  obtain ⟨l, h₁, h₂⟩ := ok_of_bind h
  have hsub₁ : l.Sublist (candidates p) :=
    foldlM_invariant (I := fun l => l.Sublist (candidates p))
      (fun _ _ _ _ hok hs => (scanAssignment_ok hok).1.trans hs) h₁ (List.Sublist.refl _)
  have hsub₂ : s.Sublist l :=
    foldlM_invariant (I := fun s => s.Sublist l)
      (fun _ _ _ _ hok hs => (scanArgument_ok hok).1.trans hs) h₂ (List.Sublist.refl _)
  refine ⟨hsub₂.trans hsub₁, ?_, ?_⟩
  · have hall := foldlM_forall (R := fun lhs l => ∀ n v, lhs = .name n → lhs.root = some v → v ∉ l)
      (fun _ _ _ hok => (scanAssignment_ok hok).2)
      (by
        intro l lhs _ l' hok hr n v hn hv hmem
        exact hr n v hn hv ((scanAssignment_ok hok).1.subset hmem)) h₁
    intro n v hmem hroot hs
    exact hall _ hmem n v rfl hroot (hsub₂.subset hs)
  · have hall := foldlM_forall
      (R := fun a l => ∀ n v, a = (none, .name n) → (Expr.name n : Expr L).root = some v → v ∉ l)
      (fun _ _ _ hok => (scanArgument_ok hok).2)
      (by
        intro l a _ l' hok hr n v hn hv hmem
        exact hr n v hn hv ((scanArgument_ok hok).1.subset hmem)) h₂
    intro c hc hw n v hmem hroot hs
    refine hall _ ?_ n v rfl hroot hs
    refine mem_flatMap.mpr ⟨c, ?_, hmem⟩
    exact mem_filter.mpr ⟨hc, hw⟩

/-! ## What the pass turns into constants -/

/-- A valid program: its modules are, and no two of them have one name. -/
structure Program.Valid (p : Program L) : Prop where
  modules : ∀ m ∈ p.modules, m.Valid
  nodup : (p.modules.map Module.name).Nodup

/-- The entities of the modules are different. -/
theorem Program.Valid.moduleEntities_nodup (hp : p.Valid) : p.moduleEntities.Nodup := by
  unfold Program.moduleEntities
  rw [nodup_flatMap]
  constructor
  · intro m hm
    refine List.Nodup.map ?_ (hp.modules m hm).names_nodup
    intro x y hxy
    simpa using hxy
  · refine (pairwise_map.mp hp.nodup).imp ?_
    intro m m' hne s hs hs'
    obtain ⟨x, -, rfl⟩ := mem_map.mp hs
    obtain ⟨y, -, hy⟩ := mem_map.mp hs'
    exact hne (List.cons.inj hy).1.symm

/-- The candidates are different. -/
theorem Program.Valid.candidates_nodup (hp : p.Valid) : (candidates p).Nodup := by
  refine List.Nodup.sublist ?_ hp.moduleEntities_nodup
  unfold candidates Program.moduleEntities
  have hitem : ∀ item : SpecItem, item.candidates.Sublist (item.entities.map Entity.name) := by
    intro item
    cases item with
    | decl d => exact filter_sublist.map _
    | other u => exact nil_sublist _
  generalize p.modules = modules
  induction modules with
  | nil => exact nil_sublist _
  | cons m modules ih =>
    rw [flatMap_cons, flatMap_cons]
    refine List.Sublist.append (List.Sublist.map _ ?_) ih
    unfold Module.names
    generalize m.items = items
    induction items with
    | nil => exact nil_sublist _
    | cons item items ih' =>
      rw [flatMap_cons, flatMap_cons]
      exact (hitem item).append ih'

/-- A name that is declared has a place. -/
theorem declaredAt_of_mem {m : Module} {e : Entity}
    (hd : SpecItem.decl d ∈ m.items) (he : e ∈ d.entities) : ∃ i, DeclaredAt m i d e := by
  obtain ⟨i, hi⟩ := List.getElem?_of_mem hd
  exact ⟨i, hi, he⟩

/-- A variable that is no constant has a declaration without the attribute. -/
theorem not_hasParameter {e : Entity} (h : ¬isConst d e) :
    ¬hasParameter d.attrs := by
  intro hp
  unfold isConst hasParameter at h
  rw [any_append, Bool.or_eq_true] at h
  exact h (Or.inl hp)

/-- A candidate is declared without the attribute. -/
theorem not_isConst_of_candidate (hp : p.Valid) {m : Module} (hm : m ∈ p.modules) {x : String}
    (h : [m.name, x] ∈ candidates p) :
    ∃ d e, SpecItem.decl d ∈ m.items ∧ e ∈ d.entities ∧ e.name = x ∧ ¬isConst d e := by
  obtain ⟨m', hm', hx⟩ := mem_flatMap.mp h
  obtain ⟨y, hy, heq⟩ := mem_map.mp hx
  obtain ⟨hname, hxy⟩ := List.cons.inj heq
  obtain rfl : m' = m := inj_on_of_nodup_map hp.nodup hm' hm hname
  obtain rfl : y = x := (List.cons.inj hxy).1
  obtain ⟨item, hitem, hcand⟩ := mem_flatMap.mp hy
  cases item with
  | decl d =>
    obtain ⟨e, he, rfl⟩ := mem_map.mp hcand
    obtain ⟨hmem, hconst⟩ := mem_filter.mp he
    exact ⟨d, e, hitem, hmem, rfl, by simpa using hconst⟩
  | other u => cases hcand

/-- **Only variables that the scan leaves are turned.** -/
theorem mem_of_turned (hp : p.Valid) (ho : order.Nodup) {v : Spec} (h : Turned p order v) :
    v ∈ order := by
  obtain ⟨m, hm, x, rfl, ⟨d, e, hd, he, rfl, hconst⟩, d', e', hd', he', hname, hparam⟩ := h
  have hv := hp.modules m hm
  obtain ⟨i, hat⟩ := declaredAt_of_mem hd he
  have hattrs : ∀ (j : ℕ) (c : Declaration), DeclaredAt m j c e' → ¬hasParameter c.attrs := by
    intro j c hc
    rw [(DeclaredAt.unique hv.names_nodup hc hat hname).2.1]
    exact not_hasParameter hconst
  obtain ⟨n, hn, hst⟩ := mem_map.mp hd'
  have hlists := fold_lists hv (own_nodup ho) (lists_part m (m.own order))
  rcases n with j | c
  · simp only [Part.statement] at hst
    rcases hj : m.item j with c | u <;> rw [hj] at hst
    · have heq := SpecItem.decl.inj hst
      have hmem : e' ∈ c.entities := by
        have hs := hlists.subset j
        rw [hj] at hs
        rw [← heq] at he'
        exact hs he'
      have hitem : m.items[j]? = some (.decl c) := by
        rcases hj' : m.items[j]? with _ | item
        · rw [Module.item, hj'] at hj
          cases hj
        · rw [Module.item, hj'] at hj
          exact congrArg some hj
      rw [← heq] at hparam
      exact absurd hparam (hattrs j c ⟨hitem, hmem⟩)
    · cases hst
  · obtain rfl := SpecItem.decl.inj hst
    have hj := fold_justified hv (own_nodup ho) (fun z hz => mem_own.mp hz)
      (lists_part m (m.own order)) (by
        intro c hc
        obtain ⟨_, -, hc⟩ := mem_map.mp hc
        cases hc) c hn
    rcases hj with hj | ⟨j, c', hitem, hattr, hsub⟩
    · rw [← hname]
      exact hj e' he'
    · rw [hattr] at hparam
      exact absurd hparam (hattrs j c' ⟨hitem, hsub he'⟩)

/-! ## The claim of the pass -/

/-- **The pass is sound where its scan sees every definition**: in a run that neither defines
nor passes a variable it turns in a form the scan skips, no such variable changes; and where the
declarations are splittable, every other entity of a split declaration keeps its type, its
attributes and its place before its uses. -/
theorem makeGlobalConstants_sound {s : List Spec} (hp : p.Valid)
    (hscan : neverAssigned tolerate p = .ok s) (horder : order.Perm s)
    (hsplit : ∀ m ∈ p.modules, ∀ i d, m.items[i]? = some (.decl d) → Split m order d →
      Splittable m order i d) :
    (∀ v, Turned p order v → ∀ st₀ st : State L V, Initial p.code st₀ →
      RunMeeting p.code lit (Visible (Turned p order)) st₀ st →
        st.store (.global v) = st₀.store (.global v)) ∧
    ∀ m ∈ p.modules, ∀ d e, SpecItem.decl d ∈ m.items → e ∈ d.entities → Split m order d →
      ¬Turned p order [m.name, e.name] → KeepsDeclaration (m.result order) d e := by
  obtain ⟨hsub, hscanned⟩ := neverAssigned_scanned hscan
  have hnodup : order.Nodup := horder.nodup_iff.mpr (hp.candidates_nodup.sublist hsub)
  constructor
  · intro v hv st₀ st h₀ hrun
    have hturned : Scanned p.code (Turned p order) := by
      have hmem : ∀ v, Turned p order v → v ∈ s := fun v hv =>
        horder.subset (mem_of_turned hp hnodup hv)
      exact ⟨fun n v ha hr ht => hscanned.assigned n v ha hr (hmem v ht),
        fun c hc hw n v ha hr ht => hscanned.passed c hc hw n v ha hr (hmem v ht)⟩
    exact unchanged_of_run hturned h₀ hrun v hv
  · intro m hm d e hd he hs hnot
    have hv := hp.modules m hm
    obtain ⟨i, hat⟩ := declaredAt_of_mem hd he
    have hsafe := hsplit m hm i d hat.item hs
    have hlists := fold_lists hv (own_nodup hnodup) (lists_part m (m.own order))
    cases fate_fixAll hv hnodup hat hsafe with
    | whole front back hnodes hapart hlist hleft =>
      obtain ⟨-, f, hf, hi, hmem⟩ := hs
      exact absurd (hleft f hf ⟨hi, hmem⟩) List.not_mem_nil
    | moved front back f hf hfixed hne hdone hnodes hapart hlist =>
      exact keepsDeclaration_of_moved hv hat hsafe hlists hf hfixed hne hnodes hapart
    | constant hfixed c hmem hec hparam =>
      refine absurd ⟨m, hm, e.name, rfl, ?_, c, e, ?_, hec, rfl, hparam⟩ hnot
      · exact not_isConst_of_candidate hp hm (hsub.subset (horder.subset hfixed.2))
      · exact List.mem_map.mpr ⟨_, hmem, rfl⟩

/-! ## A split declaration -/

/-- The declaration `integer :: a = 1, b`. -/
def pairDeclaration : Declaration :=
  ⟨"INTEGER", [], [⟨"a", none, true, []⟩, ⟨"b", none, false, []⟩], []⟩

/-- `module m; integer :: a = 1, b; end module` and the main program `b = a`. -/
def pairProgram : Program ℕ where
  modules := [⟨"m", [.decl pairDeclaration]⟩]
  procedures := []
  main := .assign (.name ⟨"b", some (.entity ["m", "b"])⟩) (.name ⟨"a", some (.entity ["m", "a"])⟩)
  nullable _ := false

theorem pairProgram_valid : pairProgram.Valid := by
  refine ⟨?_, by decide⟩
  intro m hm
  obtain rfl := mem_singleton.mp hm
  refine ⟨by decide, ?_⟩
  intro x hx
  have hx' : x = "a" ∨ x = "b" := by
    simpa [Module.names, SpecItem.entities, pairDeclaration] using hx
  rcases hx' with rfl | rfl
  · have hsplit : [SpecItem.decl pairDeclaration].flatMap SpecItem.events =
        [] ++ .declare "a" :: [.declare "b"] := rfl
    exact declaredBeforeUses_of_split hsplit (by decide) (by decide) (by decide)
  · have hsplit : [SpecItem.decl pairDeclaration].flatMap SpecItem.events =
        [.declare "a"] ++ .declare "b" :: [] := rfl
    exact declaredBeforeUses_of_split hsplit (by decide) (by decide) (by decide)

/-- The variable `b`, which is declared anew at the end, keeps its declaration. -/
theorem pairProgram_keepsDeclaration :
    KeepsDeclaration (Module.result ⟨"m", [.decl pairDeclaration]⟩ [["m", "a"]]) pairDeclaration
      ⟨"b", none, false, []⟩ := by
  have hscan : neverAssigned false pairProgram = .ok [["m", "a"]] := by rfl
  refine (@makeGlobalConstants_sound ℕ ℤ Int.ofNat _ _ _ _ pairProgram_valid hscan
    (List.Perm.refl _) ?_).2 _ (List.mem_singleton_self _) _ _ (List.mem_singleton_self _)
    (by decide) ⟨by decide, ⟨"a", none, true, []⟩, by decide, rfl, by decide⟩ ?_
  · intro m hm i d hi _
    obtain rfl := List.mem_singleton.mp hm
    rcases i with _ | i
    · obtain rfl := SpecItem.decl.inj (Option.some.inj hi)
      refine ⟨fun _ _ _ _ _ _ _ => by decide, ?_, ?_⟩
      · intro f _ e _ _ _ j item hj hitem
        rw [List.getElem?_eq_none (by simp; omega)] at hitem
        cases hitem
      · intro f hf e _ _ _ he
        have huses : f.uses = [] := by
          simp only [pairDeclaration, List.mem_cons, List.not_mem_nil, or_false] at hf
          rcases hf with rfl | rfl <;> rfl
        rw [huses] at he
        cases he
    · cases hi
  · intro hturned
    have hmem := mem_of_turned pairProgram_valid (by decide) hturned
    exact absurd hmem (by decide)

/-! ## A definition the scan does not see -/

/-- `module m; integer :: a(2) = 1; end module` and the main program `a(1) = 2`. -/
def elementProgram : Program ℕ where
  modules := [⟨"m", [.decl ⟨"INTEGER", [], [⟨"a", some "2", true, []⟩], []⟩]⟩]
  procedures := []
  main := .assign (.partRef ⟨"a", some (.entity ["m", "a"])⟩ (.cons none (.literal 1) .nil))
    (.literal 2)
  nullable _ := false

/-- **The pass is not sound**: `a` becomes a `PARAMETER`, and the main program assigns an
element of it. -/
theorem not_sound_elementProgram :
    neverAssigned false elementProgram = .ok [["m", "a"]] ∧
      ¬Sound ℤ Int.ofNat elementProgram [["m", "a"]] := by
  refine ⟨rfl, ?_⟩
  intro hsound
  let target : Expr ℕ := .partRef ⟨"a", some (.entity ["m", "a"])⟩ (.cons none (.literal 1) .nil)
  let frame (todo : List (Item ℕ)) : Frame ℕ ℤ := ⟨0, none, fun _ => none, todo⟩
  let st₀ : State ℕ ℤ := ⟨[frame [.run elementProgram.main]], fun _ => 1, fun _ => False, 1⟩
  let st₁ : State ℕ ℤ := ⟨[frame [.define true target]], fun _ => 1, fun _ => False, 1⟩
  let st₂ : State ℕ ℤ := ⟨[frame []],
    fun l => if l = .global ["m", "a"] then 2 else 1, fun _ => False, 1⟩
  have hturned : Turned elementProgram [["m", "a"]] ["m", "a"] := by
    refine ⟨_, List.mem_singleton_self _, "a", rfl, ?_, ?_⟩
    · exact ⟨_, _, List.mem_singleton_self _, List.mem_singleton_self _, rfl, by decide⟩
    · exact ⟨_, _, List.mem_singleton_self _, List.mem_singleton_self _, rfl, by decide⟩
  have h₁ : Step elementProgram.code Int.ofNat st₀ st₁ := by
    have hu : Unfolds elementProgram.main [.define true target] :=
      Unfolds.assign target (.literal 2)
    have hst : st₀.stack = { frame [] with todo := .run elementProgram.main :: [] } :: [] := rfl
    exact Step.run hst hu
  have h₂ : Step elementProgram.code Int.ofNat st₁ st₂ := by
    have hst : st₁.stack = { frame [] with todo := .define true target :: [] } :: [] := rfl
    refine Step.define (l := .global ["m", "a"]) hst ?_ ?_
    · exact ⟨["m", "a"], .global ["m", "a"], rfl, rfl, Or.inl rfl⟩
    · intro l' hl'
      exact if_neg hl'
  have h := hsound.unchanged ["m", "a"] hturned st₀ st₂ ⟨rfl, fun _ => id⟩
    ((Relation.ReflTransGen.single h₁).tail h₂)
  exact absurd h (by decide)

end GlobalConstants
