/-
# Pruning keeps the program, exactly when

A machine runs the statements of a program; the pruned program is run by the same
machine, which passes over the pointer assignments that are gone.  The pruned
program is closed and equivalent (`Program.Preserves`) exactly when what the walk
does not look at is used anyway (`Program.PrunesSafely`).
-/
import DaceFortran.Pruning.PruneSound

open List

namespace Pruning

variable {p : Program} {K : List Spec}

/-! ## Runs -/

/-- The objects a statement may read or change: what it refers to, the pointer it
assigns, and the result of the function it is in. -/
def Program.Footprint (p : Program) (i : Item) (s : Spec) : Prop :=
  s ∈ i.refs.names ∨ s ∈ i.refs.comps ∨ s ∈ i.lhs ∨
    ∃ dummies result refs, .opens i.scope (.function dummies result) refs ∈ p.items ∧
      s = i.scope ++ [result]

/-- Where control goes after a statement. -/
inductive Move where
  | goto (next : ℕ)
  | call (next back : ℕ)
  | ret
  | stop
  deriving DecidableEq

/-- A statement that is executed. -/
def Item.Executable : Item → Prop
  | .pointerAssign _ _ _ _ _ => True
  | .stmt _ _ => True
  | _ => False

/-- Control may pass to the statement at `n` of the scope `s`. -/
def Program.At (p : Program) (n : ℕ) (s : Spec) : Prop :=
  ∃ i, p.items[n]? = some i ∧ i.Executable ∧ i.scope = s

/-- A meaning of the statements of a program.  A statement depends on its footprint
only and changes nothing else; a pointer assignment that calls no function changes
its pointer only and passes control on; and control stays in the scope or enters a
procedure that the statement names. -/
structure Machine (p : Program) where
  Val : Type
  act : Item → (Spec → Val) → Spec → Val
  move : Item → (Spec → Val) → Move
  frame : ∀ i σ s, ¬ p.Footprint i s → act i σ s = σ s
  reads : ∀ i σ τ, (∀ s, p.Footprint i s → σ s = τ s) →
    move i σ = move i τ ∧ ∀ s, p.Footprint i s → act i σ s = act i τ s
  assigns : ∀ scope lhs ifAction refs σ s, s ≠ lhs →
    act (.pointerAssign scope lhs ifAction false refs) σ s = σ s
  passes : ∀ scope lhs ifAction refs, .pointerAssign scope lhs ifAction false refs ∈ p.items →
    ∃ n, ∀ σ, move (.pointerAssign scope lhs ifAction false refs) σ = .goto n
  stays : ∀ i ∈ p.items, ∀ σ n, move i σ = .goto n → p.At n i.scope
  enters : ∀ i ∈ p.items, ∀ σ n back, move i σ = .call n back →
    (∃ s ∈ i.refs.names, p.At n s) ∧ p.At back i.scope

/-- The state of a run: the next statement, where to return to, and the store. -/
structure Machine.State (M : Machine p) where
  pc : ℕ
  stack : List ℕ
  store : Spec → M.Val

open Classical in
/-- One step of a program with only the statements of `present`. -/
noncomputable def Machine.step (M : Machine p) (present : List Item) (st : M.State) :
    Option M.State :=
  (p.items[st.pc]?).bind (fun i =>
    let store := if i ∈ present then M.act i st.store else st.store
    match M.move i st.store with
    | .goto n => some ⟨n, st.stack, store⟩
    | .call n back => some ⟨n, back :: st.stack, store⟩
    | .ret => match st.stack with
      | [] => none
      | back :: rest => some ⟨back, rest, store⟩
    | .stop => none)

/-- `n` steps. -/
noncomputable def Machine.run (M : Machine p) (present : List Item) : ℕ → M.State → Option M.State
  | 0, st => some st
  | n + 1, st => (M.step present st).bind (M.run present n)

/-! ## The claim and its condition -/

/-- The pruned program is closed and equivalent: names keep their declarations,
subprograms their dummy arguments, types the components that references touch and
constructors supply, variables the storage they share; a deleted pointer assignment
is no action of an `IF`, calls no function and sets no function's result; and every
run from a keeper goes on with the same values. -/
structure Program.Preserves (p : Program) (K : List Spec) : Prop where
  keepers : ∀ k ∈ K, p.Keeps (pruneUnusedObjects p K) k
  names : ∀ j ∈ (pruneUnusedObjects p K).items, ∀ r ∈ j.allRefs, ∀ n ∈ r.names,
    p.Keeps (pruneUnusedObjects p K) n
  lhs : ∀ j ∈ (pruneUnusedObjects p K).items, ∀ x ∈ j.lhs, p.Keeps (pruneUnusedObjects p K) x
  dummies : ∀ s kind refs, .opens s kind refs ∈ (pruneUnusedObjects p K).items →
    ∀ i ∈ p.items, i.scope = s → ∀ e ∈ i.entities, e.name ∈ kind.dummies →
      p.Keeps (pruneUnusedObjects p K) (s ++ [e.name])
  components : ∀ j ∈ (pruneUnusedObjects p K).items, ∀ r ∈ j.allRefs, ∀ c ∈ r.comps,
    p.Keeps (pruneUnusedObjects p K) c
  constructors : ∀ j ∈ (pruneUnusedObjects p K).items, ∀ r ∈ j.allRefs, ∀ k ∈ r.constructors,
    (∀ c ∈ k.keywords, p.Keeps (pruneUnusedObjects p K) c) ∧
      ((pruneUnusedObjects p K).components p.items.length k.type).take k.positional =
        (p.components p.items.length k.type).take k.positional
  storage : ∀ a b, p.Keeps (pruneUnusedObjects p K) a → p.Keeps (pruneUnusedObjects p K) b →
    p.Storage a b → (pruneUnusedObjects p K).Storage a b
  removed : ∀ scope x ifAction calls refs, .pointerAssign scope x ifAction calls refs ∈ p.items →
    (∃ kind refs', .opens scope kind refs' ∈ (pruneUnusedObjects p K).items) →
    ¬ p.Keeps (pruneUnusedObjects p K) x → ifAction = false ∧ calls = false ∧
      ∀ s dummies result refs', .opens s (.function dummies result) refs' ∈
        (pruneUnusedObjects p K).items → x ≠ s ++ [result]
  runs : ∀ (M : Machine p) (n : ℕ) (st : M.State), st.stack = [] → (∃ k ∈ K, p.At st.pc k) →
    Option.Rel (fun a b => a.pc = b.pc ∧ a.stack = b.stack ∧
        ∀ s, p.Keeps (pruneUnusedObjects p K) s → a.store s = b.store s)
      (M.run p.items n st) (M.run (pruneUnusedObjects p K).items n st)

/-- What the walk does not look at is used anyway. -/
structure Program.PrunesSafely (p : Program) (K : List Spec) : Prop where
  /-- The procedures around a keeper are used. -/
  keepers : ∀ k ∈ K, p.Live K k
  /-- So are the names of surviving statements that are in no walked scope, such as
  the type of a module variable. -/
  names : ∀ i ∈ p.items, p.Survives K i → ¬ p.Followed K i →
    (∀ n ∈ i.refs.names, p.Live K n) ∧ ∀ c ∈ i.refs.comps, p.Used K c
  /-- The type of a component that is referred to is used. -/
  types : ∀ i ∈ p.items, p.Survives K i → ∀ r, p.LivePiece K i r → ∀ c ∈ r.comps,
    p.Live K c.dropLast
  /-- A component that a structure constructor supplies is used. -/
  constructors : ∀ i ∈ p.items, p.Survives K i → ∀ r, p.LivePiece K i r → ∀ k ∈ r.constructors,
    ∀ c ∈ k.keywords ++ (p.components p.items.length k.type).take k.positional, p.Live K c
  /-- Variables that share storage do so through variables that are used. -/
  storage : ∀ a b, p.Declares a → p.Declares b → p.Live K a → p.Live K b → p.Storage a b →
    Relation.EqvGen (fun a b => ∃ scope pairs, .equivalence scope pairs ∈ p.items ∧
      p.Live K scope ∧ (a, b) ∈ pairs ∧ p.Used K a ∧ p.Used K b) a b
  /-- A pointer that is only assigned is declared as a pointer variable, is not
  assigned by the action of an `IF` nor to what a function returns, and is not the
  result of a function. -/
  pointers : ∀ scope x ifAction calls refs, .pointerAssign scope x ifAction calls refs ∈ p.items →
    p.Live K scope → ¬ p.Live K x → p.isPointer x = true ∧ ifAction = false ∧ calls = false ∧
      ∀ s dummies result refs', .opens s (.function dummies result) refs' ∈ p.items →
        p.Live K s → x ≠ s ++ [result]

/-! ## The parts of the claim -/

variable {s a c : Spec} {kind : Kind} {refs : Refs}

theorem Program.WellFormed.opens_iff (h : p.WellFormed) :
    .opens s kind refs ∈ (pruneUnusedObjects p K).items ↔
      .opens s kind refs ∈ p.items ∧ p.Live K s := by
  constructor
  · intro hj
    obtain ⟨i, hi, hlive, hpr⟩ := h.mem_pruned.mp hj
    rcases pruneItem_eq_some hpr with ⟨heq, -, -⟩ | ⟨_, _, _, heq⟩
    · cases i <;> simp only [Item.restrict] at heq
      · cases heq
        exact ⟨hi, hlive⟩
      all_goals cases heq
    · cases heq
  · rintro ⟨hi, hlive⟩
    exact h.survives_mem hi ⟨hlive, by simp [Item.lhs], trivial⟩

variable {i : Item} {M : Machine p} {st st' : M.State}

variable {x : Spec} {type : Spec} {r : Refs}

/-- The scopes around an assigned pointer live with the statement. -/
theorem Program.WellFormed.used_of_prefix_lhs (h : p.WellFormed) (hi : i ∈ p.items)
    (hlive : p.Live K i.scope) (hx : x ∈ i.lhs) (hpre : a <+: x)
    (hne : a ≠ x) (hp : p.prunable a = true) : p.Used K a := by
  have hinner := h.inner_of_prefix (h.lhs i hi x hx).1 hpre hne hp
  exact hlive a (h.local_lhs i hi x hx a hpre hne hinner) hp

theorem Program.WellFormed.live_lhs (h : p.WellFormed) (hi : i ∈ p.items)
    (hlive : p.Live K i.scope) (hx : x ∈ i.lhs) (hused : p.Used K x) : p.Live K x := by
  intro a hpre hp
  by_cases hne : a = x
  · rw [hne]
    exact hused
  · exact h.used_of_prefix_lhs hi hlive hx hpre hne hp

theorem ne_nil_of_isPointer (h : p.isPointer x = true) : x ≠ [] := by
  rintro rfl
  unfold Program.isPointer at h
  split at h
  · rename_i hd
    obtain ⟨-, hmem⟩ := declares_of_declaration hd
    obtain ⟨e, -, he⟩ := mem_map.mp hmem
    simp at he
  · cases h

/-- The assignments that are left of pointer variables assign pointers that live. -/
theorem Program.WellFormed.live_of_not_unassigned (h : p.WellFormed) (hi : i ∈ p.items)
    (hlive : p.Live K i.scope) (hx : x ∈ i.lhs) (hptr : p.isPointer x = true)
    (hun : p.unassigned (p.survivors K) x = false) : p.Live K x := by
  have hscope : p.Live K x.dropLast := by
    intro a hpre hp
    refine h.used_of_prefix_lhs hi hlive hx (hpre.trans (List.dropLast_prefix x)) ?_ hp
    rintro rfl
    have hlen := hpre.length_le
    have hpos := length_pos_iff.mpr (ne_nil_of_isPointer hptr)
    rw [length_dropLast] at hlen
    omega
  unfold Program.unassigned at hun
  rw [hptr, h.alive_iff.mpr hscope] at hun
  simp only [Bool.true_and, Bool.and_true, Bool.not_eq_false', decide_eq_true_eq] at hun
  exact h.live_lhs hi hlive hx (h.mem_survivors_iff.mp hun)

/-- What is left of the program: surviving statements with the entities that are
used, and equivalences with the pairs that are. -/
theorem Program.WellFormed.pruned_cases (h : p.WellFormed)
    (hptr : ∀ scope x ifAction calls refs, .pointerAssign scope x ifAction calls refs ∈ p.items →
      p.Live K scope → ¬ p.Live K x → p.isPointer x = true)
    {j : Item} (hj : j ∈ (pruneUnusedObjects p K).items) :
    (∃ i ∈ p.items, p.Survives K i ∧ j = i.restrict (p.keep K i.scope)) ∨
      ∃ scope pairs kept, .equivalence scope pairs ∈ p.items ∧ p.Live K scope ∧
        j = .equivalence scope kept ∧
          ∀ q, q ∈ kept ↔ q ∈ pairs ∧ p.Used K q.1 ∧ p.Used K q.2 := by
  obtain ⟨i, hi, hlive, hpr⟩ := h.mem_pruned.mp hj
  rcases pruneItem_eq_some hpr with ⟨heq, hun, hne⟩ | ⟨scope, pairs, rfl, rfl⟩
  · refine Or.inl ⟨i, hi, ⟨hlive, ?_, ?_⟩, heq⟩
    · intro x hx
      by_contra hnot
      have hpx : p.isPointer x = true := by
        cases i with
        | pointerAssign scope lhs ifAction calls refs =>
            obtain rfl : lhs = x := by simpa [Item.lhs] using hx
            exact hptr _ _ _ _ _ hi hlive hnot
        | _ => simp [Item.lhs] at hx
      exact hnot (h.live_of_not_unassigned hi hlive hx hpx (hun x hx))
    · cases i with
      | decl scope component pointer type entities =>
          unfold Program.pruneItem at hpr
          split_ifs at hpr
          dsimp only at hpr
          split_ifs at hpr with hempty
          have hnil : entities.filter (fun e => decide (scope ++ [e.name] ∈ p.survivors K)) ≠
              [] := by
            simpa using hempty
          obtain ⟨e, he⟩ := exists_mem_of_ne_nil _ hnil
          rw [mem_filter, decide_eq_true_eq, h.mem_survivors_iff] at he
          exact ⟨e, he.1, he.2⟩
      | equivalence scope pairs => exact absurd rfl (hne scope pairs)
      | _ => trivial
  · refine Or.inr ⟨scope, pairs, _, hi, hlive, rfl, ?_⟩
    intro q
    simp [mem_filter, h.mem_survivors_iff]

/-! ### Types -/

theorem findSome?_filterMap {α β γ : Type*} (f : α → Option β) (g : β → Option γ) (l : List α) :
    (l.filterMap f).findSome? g = l.findSome? (fun a => (f a).bind g) := by
  induction l with
  | nil => rfl
  | cons a l ih =>
      cases hf : f a with
      | none => simp [hf, ih]
      | some b => simp [List.findSome?_cons, hf, ih]

/-- A live type keeps its parent. -/
theorem Program.WellFormed.parent_pruned (h : p.WellFormed) (hlive : p.Live K type) :
    (pruneUnusedObjects p K).parent type = p.parent type := by
  have halive := h.alive_iff.mpr hlive
  unfold Program.parent pruneUnusedObjects
  rw [findSome?_filterMap]
  congr 1
  funext i
  unfold Program.pruneItem
  cases i with
  | opens spec kind refs =>
      by_cases hspec : spec = type
      · subst hspec
        simp [Item.scope, halive]
      · cases kind with
        | derivedType parent => cases parent <;> split_ifs <;> simp [hspec]
        | _ => split_ifs <;> simp
  | _ =>
      dsimp only
      split_ifs <;> rfl

/-- A live type keeps its own components that live, in order. -/
theorem Program.WellFormed.componentsOf_pruned (h : p.WellFormed)
    (hlive : p.Live K type) :
    (pruneUnusedObjects p K).items.flatMap (Item.componentsOf type) =
      (p.items.flatMap (Item.componentsOf type)).filter (p.alive (p.survivors K)) := by
  rw [pruneUnusedObjects, filterMap_eq_flatMap_toList, flatMap_assoc, filter_flatMap]
  refine flatMap_congr (fun i hi => ?_)
  unfold Program.pruneItem
  cases i with
  | decl scope component pointer type' entities =>
      cases component with
      | false =>
          dsimp only
          split_ifs <;> rfl
      | true =>
          by_cases hscope : scope = type
          · subst hscope
            -- an entity of the live scope lives when it is used
            have hentity : ∀ e ∈ entities, p.alive (p.survivors K) (scope ++ [e.name]) =
                decide (scope ++ [e.name] ∈ p.survivors K) := by
              intro e he
              rw [Bool.eq_iff_iff, h.alive_iff, decide_eq_true_eq, h.mem_survivors_iff]
              exact ⟨fun hl => hl _ (prefix_refl _) (h.prunable_entity hi he),
                live_concat hlive⟩
            have hfilter : (entities.map (fun e => scope ++ [e.name])).filter
                (p.alive (p.survivors K)) =
                (entities.filter (fun e => decide (scope ++ [e.name] ∈ p.survivors K))).map
                  (fun e => scope ++ [e.name]) := by
              rw [filter_map]
              congr 1
              exact filter_congr hentity
            simp only [Item.scope, h.alive_iff.mpr hlive, if_true, Item.componentsOf, hfilter]
            split_ifs with hempty
            · rw [isEmpty_iff.mp hempty]
              rfl
            · simp [Item.componentsOf]
          · dsimp only
            split_ifs <;> simp [Item.componentsOf, hscope]
  | _ =>
      dsimp only
      split_ifs <;> rfl

/-- **A live type keeps its components that live, in order.** -/
theorem Program.WellFormed.components_pruned (h : p.WellFormed) (depth : ℕ)
    (hlive : p.Live K type) : (pruneUnusedObjects p K).components depth type =
      (p.components depth type).filter (p.alive (p.survivors K)) := by
  induction depth generalizing type with
  | zero => rfl
  | succ depth ih =>
      rw [Program.components, Program.components, filter_append, h.parent_pruned hlive,
        h.componentsOf_pruned hlive]
      congr 1
      cases hparent : p.parent type with
      | none => rfl
      | some parent =>
          -- a reached type names its parent
          refine ih ?_
          obtain ⟨i, hi, hsome⟩ := exists_of_findSome?_eq_some hparent
          cases i with
          | opens s kind refs =>
              cases kind with
              | derivedType q =>
                  cases q with
                  | none => simp at hsome
                  | some parent' =>
                      simp only [Option.ite_none_right_eq_some, Option.some.injEq] at hsome
                      obtain ⟨rfl, rfl⟩ := hsome
                      have hreach := h.reached_of_live hi rfl hlive
                      exact h.live_names hi hlive (Or.inl rfl)
                        (Or.inl ⟨s, _, refs, hi, by simp, prefix_refl _, hreach⟩)
                        (h.parents _ _ _ hi)
              | _ => simp at hsome
          | _ => simp at hsome

/-! ### Equivalences -/

theorem Program.WellFormed.storage_pruned (h : p.WellFormed) {b : Spec} :
    (pruneUnusedObjects p K).Storage a b ↔
      Relation.EqvGen (fun a b => ∃ scope pairs, .equivalence scope pairs ∈ p.items ∧
        p.Live K scope ∧ (a, b) ∈ pairs ∧ p.Used K a ∧ p.Used K b) a b := by
  have hrel : ∀ a b, (∃ scope pairs, Item.equivalence scope pairs ∈
      (pruneUnusedObjects p K).items ∧ (a, b) ∈ pairs) ↔
      ∃ scope pairs, Item.equivalence scope pairs ∈ p.items ∧ p.Live K scope ∧ (a, b) ∈ pairs ∧
        p.Used K a ∧ p.Used K b := by
    intro a b
    constructor
    · rintro ⟨scope, kept, hj, hab⟩
      obtain ⟨i, hi, hlive, hpr⟩ := h.mem_pruned.mp hj
      rcases pruneItem_eq_some hpr with ⟨heq, -, hne⟩ | ⟨scope', pairs, rfl, heq⟩
      · cases i with
        | equivalence scope pairs => exact absurd rfl (hne scope pairs)
        | _ => cases heq
      · cases heq
        simp only [mem_filter, Bool.and_eq_true, decide_eq_true_eq, h.mem_survivors_iff] at hab
        exact ⟨scope, pairs, hi, hlive, hab.1, hab.2⟩
    · rintro ⟨scope, pairs, hi, hlive, hab, ha, hb⟩
      have hmem : (a, b) ∈ pairs.filter
          (fun q => decide (q.1 ∈ p.survivors K) && decide (q.2 ∈ p.survivors K)) := by
        simp only [mem_filter, Bool.and_eq_true, decide_eq_true_eq, h.mem_survivors_iff]
        exact ⟨hab, ha, hb⟩
      refine ⟨scope, _, h.mem_pruned.mpr ⟨_, hi, hlive, ?_⟩, hmem⟩
      have halive : p.alive (p.survivors K) (Item.equivalence scope pairs).scope = true :=
        h.alive_iff.mpr hlive
      unfold Program.pruneItem
      rw [if_pos halive]
      dsimp only
      rw [isEmpty_eq_false_iff.mpr (ne_nil_of_mem hmem)]
      rfl
  unfold Program.Storage
  have hfun : (fun a b => ∃ scope pairs, Item.equivalence scope pairs ∈
      (pruneUnusedObjects p K).items ∧ (a, b) ∈ pairs) = _ := funext (fun a => funext (fun b =>
    propext (hrel a b)))
  rw [hfun]

/-! ### Runs -/

/-- A pointer whose assignments are gone. -/
def Program.Removed (p : Program) (K : List Spec) (x : Spec) : Prop :=
  ∃ scope ifAction calls refs, .pointerAssign scope x ifAction calls refs ∈ p.items ∧
    p.Live K scope ∧
    ¬ p.Live K x

/-- The states agree but for the pointers whose assignments are gone, and control
stays in live scopes. -/
structure Machine.Agree {M : Machine p} (K : List Spec) (st st' : M.State) : Prop where
  pc : st.pc = st'.pc
  stack : st.stack = st'.stack
  live : ∀ n ∈ st.pc :: st.stack, ∃ s, p.At n s ∧ p.Live K s
  store : ∀ s, ¬ p.Removed K s → st.store s = st'.store s

/-- A used component of a live type lives. -/
theorem live_of_dropLast (hused : p.Used K c) (hlive : p.Live K c.dropLast) :
    p.Live K c := by
  intro a hpre hp
  by_cases hne : a = c
  · rw [hne]
    exact hused
  · refine hlive a ?_ hp
    obtain ⟨t, rfl⟩ := hpre
    cases t using List.reverseRecOn with
    | nil => exact absurd (append_nil a).symm hne
    | append_singleton t b =>
        rw [← append_assoc, dropLast_concat]
        exact prefix_append _ _

/-- What the surviving code names lives. -/
theorem Program.PrunesSafely.live_names (h : p.WellFormed) (hsafe : p.PrunesSafely K)
    (hi : i ∈ p.items) (hs : p.Survives K i) (hr : p.LivePiece K i r) {n : Spec}
    (hn : n ∈ r.names) : p.Live K n := by
  by_cases hf : p.Followed K i ∨ r ≠ i.refs
  · exact h.live_names hi hs.1 hr hf hn
  · push Not at hf
    rw [hf.2] at hn
    exact (hsafe.names i hi hs hf.1).1 n hn

/-- What the references of the surviving code touch lives. -/
theorem Program.PrunesSafely.live_comps (h : p.WellFormed) (hsafe : p.PrunesSafely K)
    (hi : i ∈ p.items) (hs : p.Survives K i) (hr : p.LivePiece K i r)
    (hc : c ∈ r.comps) : p.Live K c := by
  refine live_of_dropLast ?_ (hsafe.types i hi hs r hr c hc)
  by_cases hf : p.Followed K i ∨ r ≠ i.refs
  · exact h.used_comps hi hs.1 hr hf hc
  · push Not at hf
    rw [hf.2] at hc
    exact (hsafe.names i hi hs hf.1).2 c hc

/-- The footprint of a surviving statement avoids the removed pointers. -/
theorem Program.PrunesSafely.not_removed (h : p.WellFormed) (hsafe : p.PrunesSafely K)
    (hi : i ∈ p.items) (hs : p.Survives K i) (hfoot : p.Footprint i s) :
    ¬ p.Removed K s := by
  rintro ⟨scope, ifAction, calls, refs, hmem, hlive, hdead⟩
  rcases hfoot with hn | hc | hx | ⟨dummies, result, refs', hopen, rfl⟩
  · exact hdead (hsafe.live_names h hi hs (Or.inl rfl) hn)
  · exact hdead (hsafe.live_comps h hi hs (Or.inl rfl) hc)
  · exact hdead (hs.2.1 s hx)
  · exact (hsafe.pointers _ _ _ _ _ hmem hlive hdead).2.2.2 _ _ _ _ hopen hs.1 rfl

/-- The statement that control is at, in a live scope. -/
theorem Machine.Agree.item (h : Machine.Agree K st st') :
    ∃ i, p.items[st.pc]? = some i ∧ i ∈ p.items ∧ i.Executable ∧ p.Live K i.scope := by
  obtain ⟨_, ⟨i, hget, hex, rfl⟩, hlive⟩ := h.live st.pc mem_cons_self
  exact ⟨i, hget, mem_of_getElem? hget, hex, hlive⟩

/-- Executable statements are left as they are. -/
theorem Program.WellFormed.executable_mem (h : p.WellFormed) (hi : i ∈ p.items)
    (hex : i.Executable) (hs : p.Survives K i) : i ∈ (pruneUnusedObjects p K).items := by
  have hmem := h.survives_mem hi hs
  cases i with
  | pointerAssign => exact hmem
  | stmt => exact hmem
  | _ => exact absurd hex id

/-- The stores agree after a statement that is left. -/
theorem Machine.store_act (h : p.WellFormed) (hsafe : p.PrunesSafely K)
    (hi : i ∈ p.items) (hs : p.Survives K i) {σ τ : Spec → M.Val}
    (hστ : ∀ s, ¬ p.Removed K s → σ s = τ s) :
    M.move i σ = M.move i τ ∧ ∀ s, ¬ p.Removed K s → M.act i σ s = M.act i τ s := by
  obtain ⟨hmove, hact⟩ := M.reads i σ τ (fun s hs' => hστ s (hsafe.not_removed h hi hs hs'))
  refine ⟨hmove, fun s hrem => ?_⟩
  by_cases hfoot : p.Footprint i s
  · exact hact s hfoot
  · rw [M.frame i σ s hfoot, M.frame i τ s hfoot]
    exact hστ s hrem

/-- The stores agree, and so do the moves, after any statement of a live scope; one
that does not survive passes control on. -/
theorem Machine.Agree.act (h : p.WellFormed) (hsafe : p.PrunesSafely K)
    (hagree : Machine.Agree K st st') (hi : i ∈ p.items)
    (hex : i.Executable) (hlive : p.Live K i.scope) :
    M.move i st.store = M.move i st'.store ∧
      (p.Survives K i ∨ ∃ n, M.move i st.store = .goto n) ∧ ∀ s, ¬ p.Removed K s →
        M.act i st.store s =
          (open Classical in if i ∈ (pruneUnusedObjects p K).items then M.act i st'.store
            else st'.store) s := by
  classical
  by_cases hs : p.Survives K i
  · rw [if_pos (h.executable_mem hi hex hs)]
    obtain ⟨hmove, hact⟩ := Machine.store_act h hsafe hi hs hagree.store
    exact ⟨hmove, Or.inl hs, hact⟩
  · -- an assignment of a removed pointer
    cases i with
    | stmt scope refs => exact absurd ⟨hlive, by simp [Item.lhs], trivial⟩ hs
    | pointerAssign scope lhs ifAction calls refs =>
        have hdead : ¬ p.Live K lhs := by
          intro hl
          refine hs ⟨hlive, ?_, trivial⟩
          intro x hx
          obtain rfl : lhs = x := by simpa [Item.lhs] using hx
          exact hl
        obtain ⟨hptr, -, rfl, -⟩ := hsafe.pointers _ _ _ _ _ hi hlive hdead
        have hnot : Item.pointerAssign scope lhs ifAction false refs ∉
            (pruneUnusedObjects p K).items := by
          intro hmem
          obtain ⟨i, hi', hlive', hpr⟩ := h.mem_pruned.mp hmem
          rcases pruneItem_eq_some hpr with ⟨heq, hun, -⟩ | ⟨_, _, _, heq⟩
          · cases i with
            | pointerAssign =>
                cases heq
                exact hdead (h.live_of_not_unassigned hi' hlive' rfl hptr (hun _ rfl))
            | _ => cases heq
          · cases heq
        rw [if_neg hnot]
        obtain ⟨n, hn⟩ := M.passes _ _ _ _ hi
        refine ⟨(hn _).trans (hn _).symm, Or.inr ⟨n, hn _⟩, fun s hrem => ?_⟩
        have hne : s ≠ lhs := by
          rintro rfl
          exact hrem ⟨scope, ifAction, false, refs, hi, hlive, hdead⟩
        rw [M.assigns _ _ _ _ _ _ hne]
        exact hagree.store s hrem
    | _ => exact absurd hex id

/-- **One step.** -/
theorem Machine.Agree.step (h : p.WellFormed) (hsafe : p.PrunesSafely K)
    (hagree : Machine.Agree K st st') :
    Option.Rel (Machine.Agree K) (M.step p.items st)
      (M.step (pruneUnusedObjects p K).items st') := by
  classical
  obtain ⟨i, hget, hi, hex, hlive⟩ := hagree.item
  obtain ⟨hmove, hsurv, hstore⟩ := hagree.act h hsafe hi hex hlive
  have hget' : p.items[st'.pc]? = some i := hagree.pc ▸ hget
  unfold Machine.step
  rw [hget, hget']
  simp only [Option.bind_some, if_pos hi, ← hmove]
  have htail : ∀ n ∈ st.stack, ∃ s, p.At n s ∧ p.Live K s :=
    fun n hn => hagree.live n (mem_cons_of_mem _ hn)
  cases hm : M.move i st.store with
  | goto n =>
      refine .some ⟨rfl, hagree.stack, ?_, hstore⟩
      intro m hmem
      rcases mem_cons.mp hmem with rfl | hmem
      · exact ⟨_, M.stays i hi _ _ hm, hlive⟩
      · exact htail m hmem
  | call n back =>
      obtain ⟨⟨s, hs, hat⟩, hback⟩ := M.enters i hi _ _ _ hm
      have hi' : p.Survives K i := by
        rcases hsurv with hsurv | ⟨n', hgoto⟩
        · exact hsurv
        · rw [hm] at hgoto
          cases hgoto
      refine .some ⟨rfl, by rw [hagree.stack], ?_, hstore⟩
      intro m hmem
      rcases mem_cons.mp hmem with rfl | hmem
      · -- a procedure the statement names
        exact ⟨s, hat, hsafe.live_names h hi hi' (Or.inl rfl) hs⟩
      · rcases mem_cons.mp hmem with rfl | hmem
        · exact ⟨_, hback, hlive⟩
        · exact htail m hmem
  | ret =>
      rw [← hagree.stack]
      cases hstack : st.stack with
      | nil => exact .none
      | cons back rest =>
          rw [hstack] at htail
          exact .some ⟨rfl, rfl, htail, hstore⟩
  | stop => exact .none

/-- **A run**, by induction on its length. -/
theorem Machine.Agree.run (h : p.WellFormed) (hsafe : p.PrunesSafely K) (n : ℕ)
    (hagree : Machine.Agree K st st') :
    Option.Rel (Machine.Agree K) (M.run p.items n st)
      (M.run (pruneUnusedObjects p K).items n st') := by
  induction n generalizing st st' with
  | zero => exact .some hagree
  | succ n ih =>
      rw [Machine.run, Machine.run]
      have hstep := hagree.step h hsafe
      generalize M.step p.items st = a at hstep
      generalize M.step (pruneUnusedObjects p K).items st' = b at hstep
      cases hstep with
      | none => exact .none
      | some hst => exact ih hst

/-! ## The main result -/

/-- A declared dummy argument of a live subprogram is marked. -/
theorem Program.WellFormed.touched_dummy (h : p.WellFormed)
    (hopen : .opens i.scope kind refs ∈ p.items) (hlive : p.Live K i.scope) (hi : i ∈ p.items)
    {e : Entity} (he : e ∈ i.entities) (hd : e.name ∈ kind.dummies) :
    p.Touched K (i.scope ++ [e.name]) := by
  have hkind : kind.prunable = true ∧ kind ≠ .module := by
    cases kind <;> simp_all [Kind.dummies, Kind.prunable]
  have hdecl := h.declaration hopen (s := i.scope) (mem_singleton_self _)
  refine ⟨i.scope, h.reached_of_live hopen hkind.1 hlive, ?_⟩
  rw [h.walk_opens hopen hkind.2]
  refine mem_scopeActions.mpr ⟨i, hi, prefix_refl _, Or.inl (mem_itemActions.mpr (Or.inr ?_))⟩
  cases i with
  | decl scope component pointer type entities =>
      cases component with
      | false =>
          refine ⟨scope, pointer, type, entities, rfl, e, he, ?_, rfl⟩
          simp only [Item.scope] at hdecl
          unfold Program.dummies
          rw [hdecl]
          exact hd
      | true =>
          -- a type has no dummy arguments
          obtain ⟨parent, refs', hopen'⟩ := h.components _ _ _ _ hi
          have hdecl' := h.declaration hopen' (s := scope) (mem_singleton_self _)
          simp only [Item.scope] at hdecl
          rw [hdecl] at hdecl'
          cases hdecl'
          simp [Kind.dummies] at hd
  | _ => simp [Item.entities] at he

theorem take_filter_of_forall {α : Type*} {f : α → Bool} {k : ℕ} {l : List α}
    (h : ∀ a ∈ l.take k, f a = true) : (l.filter f).take k = l.take k := by
  induction l generalizing k with
  | nil => rfl
  | cons a l ih =>
      cases k with
      | zero => rfl
      | succ k =>
          rw [take_succ_cons] at h
          rw [filter_cons_of_pos (h a mem_cons_self), take_succ_cons,
            take_succ_cons, ih (fun b hb => h b (mem_cons_of_mem a hb))]

/-- A program that prunes safely keeps its declarations and its runs. -/
theorem Program.PrunesSafely.preserves (h : p.WellFormed) (hK : ∀ k ∈ K, p.prunable k = true)
    (hsafe : p.PrunesSafely K) : p.Preserves K := by
  have hptr : ∀ scope x ifAction calls refs, .pointerAssign scope x ifAction calls refs ∈ p.items →
      p.Live K scope → ¬ p.Live K x → p.isPointer x = true :=
    fun scope x ifAction calls refs hi hl hd => (hsafe.pointers _ _ _ _ _ hi hl hd).1
  -- what the pruned program refers to belongs to a surviving statement
  have hpiece : ∀ j ∈ (pruneUnusedObjects p K).items, ∀ r ∈ j.allRefs,
      (∃ i ∈ p.items, p.Survives K i ∧ p.LivePiece K i r) ∨
        (r.comps = [] ∧ r.constructors = [] ∧ ∀ n ∈ r.names, p.Declares n ∧ p.Live K n) := by
    intro j hj r hr
    rcases h.pruned_cases hptr hj with ⟨i, hi, hs, rfl⟩ | ⟨scope, pairs, kept, hi,
      hlive, rfl, hkept⟩
    · refine Or.inl ⟨i, hi, hs, ?_⟩
      rcases Item.mem_allRefs.mp hr with rfl | ⟨e, he, rfl⟩
      · exact Or.inl (restrict_refs _ _)
      · rw [restrict_entities, mem_filter, h.keep_iff] at he
        exact Or.inr ⟨e, he.1, he.2, rfl⟩
    · have hr' : r = ⟨kept.flatMap (fun q => [q.1, q.2]), [], []⟩ := by
        simpa [Item.allRefs, Item.refs, Item.entities] using hr
      subst hr'
      refine Or.inr ⟨rfl, rfl, fun n hn => ?_⟩
      obtain ⟨q, hq, hn⟩ := mem_flatMap.mp hn
      obtain ⟨hpairs, h₁, h₂⟩ := (hkept q).mp hq
      have hmem : n ∈ (Item.equivalence scope pairs).refs.names :=
        mem_flatMap.mpr ⟨q, hpairs, hn⟩
      refine ⟨(h.names _ hi _ (Item.mem_allRefs.mpr (Or.inl rfl)) n hmem).1,
        h.live_of_used hi hlive (Or.inl rfl) hmem ?_⟩
      simp only [mem_cons, not_mem_nil, or_false] at hn
      rcases hn with rfl | rfl
      · exact h₁
      · exact h₂
  constructor
  case keepers =>
    intro k hk
    exact h.keeps_iff.mpr ⟨declares_of_prunable (hK k hk), hsafe.keepers k hk⟩
  case names =>
    intro j hj r hr n hn
    rw [h.keeps_iff]
    rcases hpiece j hj r hr with ⟨i, hi, hs, hr⟩ | ⟨-, -, hall⟩
    · exact ⟨(h.names i hi r (Item.mem_allRefs.mpr hr.piece) n hn).1,
        hsafe.live_names h hi hs hr hn⟩
    · exact hall n hn
  case lhs =>
    intro j hj x hx
    rw [h.keeps_iff]
    rcases h.pruned_cases hptr hj with ⟨i, hi, hs, rfl⟩ | ⟨scope, pairs, kept, hi,
      hlive, rfl, hkept⟩
    · rw [restrict_lhs] at hx
      exact ⟨(h.lhs i hi x hx).1, hs.2.1 x hx⟩
    · simp [Item.lhs] at hx
  case dummies =>
    rintro s kind refs hopen i hi rfl e he hd
    obtain ⟨hopen, hlive⟩ := h.opens_iff.mp hopen
    exact h.keeps_iff.mpr ⟨declares_of_entity hi he,
      live_concat hlive (Or.inr (h.touched_dummy hopen hlive hi he hd))⟩
  case components =>
    intro j hj r hr c hc
    rcases hpiece j hj r hr with ⟨i, hi, hs, hr⟩ | ⟨hnil, -, -⟩
    · have hcomp := h.comps i hi r (Item.mem_allRefs.mpr hr.piece) c hc
      exact h.keeps_iff.mpr ⟨declares_of_component hcomp, hsafe.live_comps h hi hs hr hc⟩
    · rw [hnil] at hc
      simp at hc
  case constructors =>
    intro j hj r hr k hk
    rcases hpiece j hj r hr with ⟨i, hi, hs, hr⟩ | ⟨-, hnil, -⟩
    · have hsupplied := hsafe.constructors i hi hs r hr k hk
      refine ⟨fun c hc => ?_, ?_⟩
      · have hcomp := h.keywords i hi r (Item.mem_allRefs.mpr hr.piece) k hk c hc
        exact h.keeps_iff.mpr ⟨declares_of_component hcomp, hsupplied c (mem_append_left _ hc)⟩
      · have htype := h.constructed i hi r (Item.mem_allRefs.mpr hr.piece) k hk
        rw [h.components_pruned _ (hsafe.live_names h hi hs hr htype)]
        refine take_filter_of_forall (fun c hc => ?_)
        exact h.alive_iff.mpr (hsupplied c (mem_append_right _ hc))
    · rw [hnil] at hk
      simp at hk
  case storage =>
    intro a b ha hb hab
    rw [h.keeps_iff] at ha hb
    exact h.storage_pruned.mpr (hsafe.storage a b ha.1 hb.1 ha.2 hb.2 hab)
  case removed =>
    rintro scope x ifAction calls refs hi ⟨kind, refs', hopen⟩ hx
    have hdead : ¬ p.Live K x := by
      intro hl
      exact hx (h.keeps_iff.mpr ⟨(h.lhs _ hi x rfl).1, hl⟩)
    obtain ⟨-, h₁, h₂, h₃⟩ := hsafe.pointers _ _ _ _ _ hi (h.opens_iff.mp hopen).2 hdead
    refine ⟨h₁, h₂, fun s dummies result refs'' hs => ?_⟩
    obtain ⟨hs, hlive⟩ := h.opens_iff.mp hs
    exact h₃ s dummies result refs'' hs hlive
  case runs =>
    rintro M n st hstack ⟨k, hk, hat⟩
    have hagree : Machine.Agree K st st := by
      refine ⟨rfl, rfl, ?_, fun _ _ => rfl⟩
      intro m hm
      rw [hstack] at hm
      rw [mem_singleton.mp hm]
      exact ⟨k, hat, hsafe.keepers k hk⟩
    have hrun := hagree.run h hsafe n
    generalize M.run p.items n st = a at hrun
    generalize M.run (pruneUnusedObjects p K).items n st = b at hrun
    cases hrun with
    | none => exact .none
    | some hst =>
        refine .some ⟨hst.pc, hst.stack, fun s hs => hst.store s ?_⟩
        rintro ⟨_, _, _, _, _, _, hdead⟩
        exact hdead (h.keeps_iff.mp hs).2

/-- What is left of the code of a surviving statement is in the pruned program. -/
theorem Program.WellFormed.mem_allRefs_restrict (h : p.WellFormed)
    (hr : p.LivePiece K i r) : r ∈ (i.restrict (p.keep K i.scope)).allRefs := by
  refine Item.mem_allRefs.mpr ?_
  rcases hr with rfl | ⟨e, he, hused, rfl⟩
  · exact Or.inl (restrict_refs _ _).symm
  · refine Or.inr ⟨e, ?_, rfl⟩
    rw [restrict_entities, mem_filter, h.keep_iff]
    exact ⟨he, hused⟩

/-- A pruned program that is closed and equivalent was pruned safely. -/
theorem Program.Preserves.prunesSafely (h : p.WellFormed) (hpres : p.Preserves K) :
    p.PrunesSafely K := by
  have hlive : ∀ {s}, p.Keeps (pruneUnusedObjects p K) s → p.Live K s :=
    fun hk => (h.keeps_iff.mp hk).2
  constructor
  case keepers => exact fun k hk => hlive (hpres.keepers k hk)
  case names =>
    intro i hi hs _
    have hj := h.survives_mem hi hs
    have hr := h.mem_allRefs_restrict (K := K) (i := i) (Or.inl rfl)
    refine ⟨fun n hn => hlive (hpres.names _ hj _ hr n hn), fun c hc => ?_⟩
    have hc' := hlive (hpres.components _ hj _ hr c hc)
    obtain ⟨_, _, _, _, hdecl, hmem⟩ := h.comps i hi _ (Item.mem_allRefs.mpr (Or.inl rfl)) c hc
    exact hc' c (prefix_refl _) (prunable_iff.mpr ⟨_, h.declaration hdecl hmem, rfl⟩)
  case types =>
    intro i hi hs r hr c hc
    have hkeep := hpres.components _ (h.survives_mem hi hs) r (h.mem_allRefs_restrict hr) c hc
    exact (hlive hkeep).mono (List.dropLast_prefix c)
  case constructors =>
    intro i hi hs r hr k hk c hc
    have hj := h.survives_mem hi hs
    have hr' := h.mem_allRefs_restrict hr
    obtain ⟨hkeys, htake⟩ := hpres.constructors _ hj r hr' k hk
    rcases mem_append.mp hc with hc | hc
    · exact hlive (hkeys c hc)
    · have htype := h.constructed i hi r (Item.mem_allRefs.mpr hr.piece) k hk
      rw [← htake, h.components_pruned _ (hlive (hpres.names _ hj r hr' _ htype))] at hc
      exact h.alive_iff.mp (mem_filter.mp (mem_of_mem_take hc)).2
  case storage =>
    intro a b ha hb hla hlb hab
    exact h.storage_pruned.mp (hpres.storage a b (h.keeps_iff.mpr ⟨ha, hla⟩)
      (h.keeps_iff.mpr ⟨hb, hlb⟩) hab)
  case pointers =>
    intro scope x ifAction calls refs hi hscope hdead
    have hnot : ¬ p.Keeps (pruneUnusedObjects p K) x := fun hk => hdead (hlive hk)
    obtain ⟨kind, refs', hopen⟩ := h.opened _ hi
    obtain ⟨h₁, h₂, h₃⟩ := hpres.removed scope x ifAction calls refs hi
      ⟨kind, refs', h.opens_iff.mpr ⟨hopen, hscope⟩⟩ hnot
    refine ⟨?_, h₁, h₂, fun s dummies result refs'' hs hl => h₃ s dummies result refs''
      (h.opens_iff.mpr ⟨hs, hl⟩)⟩
    -- otherwise the assignment would be left
    by_contra hptr
    refine hnot (hpres.lhs (.pointerAssign scope x ifAction calls refs) ?_ x rfl)
    refine h.mem_pruned.mpr ⟨_, hi, hscope, ?_⟩
    have halive : p.alive (p.survivors K)
        (Item.pointerAssign scope x ifAction calls refs).scope = true := h.alive_iff.mpr hscope
    have hun : p.unassigned (p.survivors K) x = false := by
      simp [Program.unassigned, Bool.eq_false_iff.mpr hptr]
    unfold Program.pruneItem
    rw [if_pos halive]
    dsimp only
    rw [hun]
    rfl

/-- A program with a used variable and one that is not. -/
def usedLocal : Program where
  items := [.opens ["main"] .program ⟨[], [], []⟩,
    .decl ["main"] false false ⟨[], [], []⟩ [⟨"x", ⟨[], [], []⟩⟩, ⟨"y", ⟨[], [], []⟩⟩],
    .stmt ["main"] ⟨[["main", "x"]], [], []⟩]

/-- The variable that is not used is deleted. -/
example : (pruneUnusedObjects usedLocal [["main"]]).items ≠ usedLocal.items := by decide

theorem wellFormed_usedLocal : usedLocal.WellFormed := wellFormed_of_check (by decide)

theorem prunesSafely_usedLocal : usedLocal.PrunesSafely [["main"]] := by
  have hcomps : ∀ i ∈ usedLocal.items, ∀ r ∈ i.allRefs, r.comps = [] ∧
    r.constructors = [] := by decide
  have hpiece : ∀ i ∈ usedLocal.items, ∀ r, usedLocal.LivePiece [["main"]] i r →
      r.comps = [] ∧ r.constructors = [] :=
    fun i hi r hr => hcomps i hi r (Item.mem_allRefs.mpr hr.piece)
  constructor
  case keepers =>
    intro k hk
    rw [mem_singleton.mp hk]
    exact wellFormed_usedLocal.alive_iff.mp (by decide)
  case names =>
    intro i hi _ hnot
    have hscope : ∀ i ∈ usedLocal.items, i.scope = ["main"] := by decide
    exact absurd ⟨["main"], .program, _, mem_cons_self, by simp,
      (hscope i hi) ▸ prefix_refl _, .keeper mem_cons_self⟩ hnot
  case types =>
    intro i hi _ r hr c hc
    rw [(hpiece i hi r hr).1] at hc
    simp at hc
  case constructors =>
    intro i hi _ r hr k hk
    rw [(hpiece i hi r hr).2] at hk
    simp at hk
  case storage =>
    intro a b _ _ _ _ hab
    refine hab.mono (fun a b ⟨scope, pairs, hmem, _⟩ => ?_)
    simp [usedLocal] at hmem
  case pointers =>
    intro scope x ifAction calls refs hmem
    simp [usedLocal] at hmem

/-- A module variable whose type nothing else names. -/
def typedGlobal : Program where
  items := [.opens ["lib"] .module ⟨[], [], []⟩,
    .opens ["lib", "t"] (.derivedType none) ⟨[], [], []⟩,
    .decl ["lib", "t"] true false ⟨[], [], []⟩ [⟨"x", ⟨[], [], []⟩⟩],
    .decl ["lib"] false false ⟨[["lib", "t"]], [], []⟩ [⟨"g", ⟨[], [], []⟩⟩],
    .opens ["main"] .program ⟨[], [], []⟩,
    .stmt ["main"] ⟨[["lib", "g"]], [["lib", "t", "x"]], []⟩]

/-- The marks of a walk are those of its keepers, one by one. -/
theorem used_iff {s : Spec} : p.Used K s ↔ ∃ k ∈ K, p.Used [k] s := by
  have hreached : ∀ w, p.Reached K w ↔ ∃ k ∈ K, p.Reached [k] w := fun w => Visit.reached_iff
  constructor
  · rintro (hs | ⟨w, hw, hmark⟩)
    · obtain ⟨k, hk, hs⟩ := (hreached s).1 hs
      exact ⟨k, hk, .inl hs⟩
    · obtain ⟨k, hk, hw⟩ := (hreached w).1 hw
      exact ⟨k, hk, .inr ⟨w, hw, hmark⟩⟩
  · rintro ⟨k, hk, hs | ⟨w, hw, hmark⟩⟩
    · exact .inl ((hreached s).2 ⟨k, hk, hs⟩)
    · exact .inr ⟨w, (hreached w).2 ⟨k, hk, hw⟩, hmark⟩

/-- **The order of the keepers does not matter**: the objects marked for some keepers are those
marked for each of them alone, and the pruned program is the same for the same keepers in another
order. -/
theorem pruneUnusedObjects_anyKeepers (h : p.WellFormed) :
    (∀ K s, s ∈ p.survivors K ↔ ∃ k ∈ K, s ∈ p.survivors [k]) ∧
      ∀ K K' : List Spec, (∀ k, k ∈ K ↔ k ∈ K') →
        pruneUnusedObjects p K = pruneUnusedObjects p K' := by
  have heach : ∀ K s, s ∈ p.survivors K ↔ ∃ k ∈ K, s ∈ p.survivors [k] := by
    intro K s
    simp only [h.mem_survivors_iff]
    exact used_iff
  refine ⟨heach, fun K K' hK => ?_⟩
  have hmarks : ∀ s, s ∈ p.survivors K ↔ s ∈ p.survivors K' := by
    intro s
    rw [heach K, heach K']
    simp only [hK]
  have hitem : ∀ i, p.pruneItem (p.survivors K) i = p.pruneItem (p.survivors K') i := by
    intro i
    simp only [Program.pruneItem, Program.alive, Program.unassigned, hmarks]
    cases i <;> rfl
  simp only [pruneUnusedObjects, hitem]

theorem pruneUnusedObjects_anyKeepers_usedLocal :
    pruneUnusedObjects usedLocal [["main"], ["main", "x"]] = pruneUnusedObjects usedLocal
    [["main", "x"], ["main"]] :=
  (pruneUnusedObjects_anyKeepers wellFormed_usedLocal).2 _ _ fun k => by simp [or_comm]

end Pruning
