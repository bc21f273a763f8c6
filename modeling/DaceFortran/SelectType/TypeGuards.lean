/-
# The guards of a SELECT TYPE construct

`_arm_ancestor_rank` walks from a type over the `EXTENDS` clauses to the depth of each
ancestor, and the guards are then tried in their order.  A name is taken in lower case.
-/
import Mathlib.Data.List.Range

open List

namespace SelectType

variable {Name : Type} [DecidableEq Name]

/-! ## Types and their ancestors -/

/-- The type that a type extends, if it is known and extends one. -/
def parent (tinfos : List (Name × Option Name)) (t : Name) : Option Name := (tinfos.lookup t).join

/-- The ancestor so many `EXTENDS` clauses away. -/
def ancestor (tinfos : List (Name × Option Name)) : ℕ → Name → Option Name
  | 0, t => some t
  | k + 1, t => (parent tinfos t).bind (ancestor tinfos k)

/-- The derived types of a program by their names. -/
structure TypeTable (Name : Type) [DecidableEq Name] where
  tinfos : List (Name × Option Name)
  /-- No type extends itself. -/
  acyclic : ∀ k t, ancestor tinfos (k + 1) t ≠ some t

/-- The type is the other one, or an extension of it. -/
def IsExtension (tinfos : List (Name × Option Name)) (t u : Name) : Prop :=
  ∃ k, ancestor tinfos k t = some u

variable {t u : Name}

theorem ancestor_add {tinfos : List (Name × Option Name)} {j : ℕ} (h : ancestor tinfos j t = some u)
    (k : ℕ) : ancestor tinfos (j + k) t = ancestor tinfos k u := by
  induction j generalizing t with
  | zero =>
    obtain rfl : t = u := Option.some.inj h
    rw [Nat.zero_add]
  | succ j ih =>
    rw [ancestor] at h
    rw [Nat.succ_add, ancestor]
    cases hp : parent tinfos t with
    | none =>
      rw [hp] at h
      exact absurd h (by simp)
    | some p =>
      rw [hp] at h
      exact ih h

namespace TypeTable

variable (T : TypeTable Name)

/-- An ancestor is met at one depth. -/
theorem depth_unique {j k : ℕ} {t u : Name} (hj : ancestor T.tinfos j t = some u)
    (hk : ancestor T.tinfos k t = some u) :
    j = k := by
  rcases Nat.lt_trichotomy j k with hlt | heq | hlt
  · obtain ⟨m, rfl⟩ := Nat.exists_eq_add_of_lt hlt
    rw [Nat.add_assoc, ancestor_add hj] at hk
    exact absurd hk (T.acyclic m u)
  · exact heq
  · obtain ⟨m, rfl⟩ := Nat.exists_eq_add_of_lt hlt
    rw [Nat.add_assoc, ancestor_add hk] at hj
    exact absurd hj (T.acyclic m u)

/-- Of two ancestors, the nearer one is an extension of the other. -/
theorem isExtension_of_le {j k : ℕ} {t u v : Name} (hj : ancestor T.tinfos j t = some u)
    (hk : ancestor T.tinfos k t = some v) (hjk : j ≤ k) : IsExtension T.tinfos u v := by
  obtain ⟨m, rfl⟩ := Nat.exists_eq_add_of_le hjk
  exact ⟨m, by rw [← hk, ancestor_add hj]⟩

theorem isExtension_antisymm {u v : Name} (huv : IsExtension T.tinfos u v)
    (hvu : IsExtension T.tinfos v u) :
    u = v := by
  obtain ⟨j, hj⟩ := huv
  obtain ⟨k, hk⟩ := hvu
  have hself : ancestor T.tinfos (j + k) u = some u := by rw [ancestor_add hj, hk]
  cases hjk : j + k with
  | zero =>
    obtain rfl : j = 0 := by omega
    exact Option.some.inj hj
  | succ m =>
    rw [hjk] at hself
    exact absurd hself (T.acyclic m u)

end TypeTable

/-! ## `_arm_ancestor_rank` -/

/-- The loop of `_arm_ancestor_rank`. -/
def ancestorRankLoop (tinfos : List (Name × Option Name)) (t : Name)
    (rank : List (Name × ℕ)) (depth : ℕ) :
    List (Name × ℕ) :=
  if t ∈ rank.map Prod.fst then rank
  else
    match hp : parent tinfos t with
    | none => rank ++ [(t, depth)]
    | some p => ancestorRankLoop tinfos p (rank ++ [(t, depth)]) (depth + 1)
termination_by (tinfos.filter fun e => e.1 ∉ rank.map Prod.fst).length
decreasing_by
  rename_i hnew
  obtain ⟨info, hl⟩ : ∃ info, tinfos.lookup t = some info := by
    cases hl : tinfos.lookup t with
    | none => simp [parent, hl] at hp
    | some info => exact ⟨info, rfl⟩
  have hmem : (t, info) ∈ tinfos := by
    obtain ⟨l₁, l₂, rfl, -⟩ := List.lookup_eq_some_iff.1 hl
    simp
  have hsub : (tinfos.filter fun e => e.1 ∉ (rank ++ [(t, depth)]).map Prod.fst) =
      (tinfos.filter fun e => e.1 ∉ rank.map Prod.fst).filter fun e => e.1 ≠ t := by
    rw [List.filter_filter]
    refine List.filter_congr fun e _ => ?_
    rw [Bool.eq_iff_iff]
    simp only [List.map_append, List.map_cons, List.map_nil, List.mem_append, List.mem_singleton,
      decide_eq_true_eq,
      Bool.and_eq_true, not_or, ne_eq]
    exact and_comm
  rw [hsub]
  refine List.length_filter_lt_length_iff_exists.2 ⟨(t, info),
    List.mem_filter.2 ⟨hmem, by simpa using hnew⟩, by simp⟩

/-- `_arm_ancestor_rank` -/
def armAncestorRank (tinfos : List (Name × Option Name)) (t : Name) : List (Name × ℕ) :=
  ancestorRankLoop tinfos t [] 0

theorem mem_ancestorRankLoop (T : TypeTable Name) {t : Name} {rank : List (Name × ℕ)} {depth : ℕ}
    (hbelow : ∀ u ∈ rank.map Prod.fst, ∃ k, ancestor T.tinfos (k + 1) u = some t)
    {u : Name} {r : ℕ} :
    (u, r) ∈ ancestorRankLoop T.tinfos t rank depth ↔
      (u, r) ∈ rank ∨ ∃ k, r = depth + k ∧ ancestor T.tinfos k t = some u := by
  induction t, rank, depth using ancestorRankLoop.induct T.tinfos with
  | case1 t rank depth hmem =>
    obtain ⟨k, hk⟩ := hbelow t hmem
    exact absurd hk (T.acyclic k t)
  | case2 t rank depth hmem hp =>
    rw [ancestorRankLoop, if_neg hmem]
    split
    · rw [mem_append, mem_singleton, Prod.mk.injEq]
      refine or_congr_right ⟨?_, ?_⟩
      · rintro ⟨rfl, rfl⟩
        exact ⟨0, rfl, rfl⟩
      · rintro ⟨k, rfl, hk⟩
        cases k with
        | zero => exact ⟨(Option.some.inj hk).symm, rfl⟩
        | succ k =>
          rw [ancestor, hp] at hk
          exact absurd hk (by simp)
    · rename_i p hp'
      rw [hp] at hp'
      exact absurd hp' (by simp)
  | case3 t rank depth hmem p hp ih =>
    rw [ancestorRankLoop, if_neg hmem]
    split
    · rename_i hp'
      rw [hp] at hp'
      exact absurd hp' (by simp)
    · rename_i p' hp'
      obtain rfl : p = p' := by
        rw [hp] at hp'
        exact Option.some.inj hp'
      have hstep : ancestor T.tinfos 1 t = some p := by simp [ancestor, hp]
      rw [ih ?_, mem_append, mem_singleton, Prod.mk.injEq, or_assoc]
      · refine or_congr_right ⟨?_, ?_⟩
        · rintro (⟨rfl, rfl⟩ | ⟨k, rfl, hk⟩)
          · exact ⟨0, rfl, rfl⟩
          · exact ⟨k + 1, by omega, by rw [ancestor, hp]; exact hk⟩
        · rintro ⟨k, rfl, hk⟩
          cases k with
          | zero => exact .inl ⟨(Option.some.inj hk).symm, rfl⟩
          | succ k =>
            rw [ancestor, hp] at hk
            exact .inr ⟨k, by omega, hk⟩
      · intro v hv
        rw [map_append, mem_append] at hv
        rcases hv with hv | hv
        · obtain ⟨k, hk⟩ := hbelow v hv
          exact ⟨k + 1, by rw [ancestor_add hk 1, hstep]⟩
        · obtain rfl : v = t := by simpa using hv
          exact ⟨0, hstep⟩

/-- **The rank of a type holds its ancestors with their depths.** -/
theorem mem_armAncestorRank (T : TypeTable Name) {r : ℕ} :
    (u, r) ∈ armAncestorRank T.tinfos t ↔ ancestor T.tinfos r t = some u := by
  rw [armAncestorRank, mem_ancestorRankLoop T (by simp)]
  simp

theorem lookup_armAncestorRank (T : TypeTable Name) {r : ℕ} :
    (armAncestorRank T.tinfos t).lookup u = some r ↔ ancestor T.tinfos r t = some u := by
  constructor
  · intro h
    obtain ⟨l₁, l₂, heq, -⟩ := lookup_eq_some_iff.1 h
    exact (mem_armAncestorRank T).1 (heq ▸ by simp)
  · intro h
    have hmem := (mem_armAncestorRank T).2 h
    cases hl : (armAncestorRank T.tinfos t).lookup u with
    | none =>
      have hne := lookup_eq_none_iff.1 hl _ hmem
      simp at hne
    | some r' =>
      obtain ⟨l₁, l₂, heq, -⟩ := lookup_eq_some_iff.1 hl
      have hr' : ancestor T.tinfos r' t = some u := (mem_armAncestorRank T).1 (heq ▸ by simp)
      rw [T.depth_unique hr' h]

/-! ## The guards -/

/-- A type guard statement. -/
inductive Guard (Name : Type) where
  | typeIs (t : Name)
  | classIs (t : Name)
  | classDefault
deriving DecidableEq

variable {β : Type}

/-- The loop of `_resolve_select_type_on_dummy` over the guards and the statements behind each, with
the ones chosen so far, their depth and the ones of `CLASS DEFAULT`. -/
def chooseLoop (rank : List (Name × ℕ)) (armType : Name) :
    List (Guard Name × β) → Option (β × ℕ) → Option β → Option β
  | [], best, default => (best.map Prod.fst).or default
  | (.classDefault, body) :: groups, best, _ => chooseLoop rank armType groups best (some body)
  | (.typeIs t, body) :: groups, best, default =>
    -- an exact guard ends the loop
    if t = armType then some body else chooseLoop rank armType groups best default
  | (.classIs t, body) :: groups, best, default =>
    match rank.lookup t with
    | none => chooseLoop rank armType groups best default
    | some r =>
      if ∀ b ∈ best, r < b.2 then chooseLoop rank armType groups (some (body, r)) default
      else chooseLoop rank armType groups best default

/-- The guard that `_resolve_select_type_on_dummy` takes. -/
def chooseGuard (tinfos : List (Name × Option Name)) (armType : Name) {n : ℕ}
    (guards : Fin n → Guard Name) :
    Option (Fin n) :=
  chooseLoop (armAncestorRank tinfos armType) armType
    ((List.finRange n).map fun j => (guards j, j)) none none

/-- **The guard that Fortran selects**: the exact one, else of those for a type that the dynamic
type extends the one whose type extends the others', else `CLASS DEFAULT`, else none. -/
inductive Selects (tinfos : List (Name × Option Name)) (t : Name) {n : ℕ}
    (guards : Fin n → Guard Name) :
    Option (Fin n) → Prop
  | typeIs {j : Fin n} (hj : guards j = .typeIs t) : Selects tinfos t guards (some j)
  | classIs {j : Fin n} {u : Name} (hexact : ∀ i, guards i ≠ .typeIs t) (hj : guards j = .classIs u)
      (hu : IsExtension tinfos t u)
      (hnearest : ∀ i v, guards i = .classIs v → IsExtension tinfos t v → IsExtension tinfos u v) :
      Selects tinfos t guards (some j)
  | classDefault {j : Fin n} (hexact : ∀ i, guards i ≠ .typeIs t)
      (hclass : ∀ i v, guards i = .classIs v → ¬ IsExtension tinfos t v) (hj : guards j =
        .classDefault) :
      Selects tinfos t guards (some j)
  | none (hexact : ∀ i, guards i ≠ .typeIs t) (hclass : ∀ i v, guards i = .classIs v →
      ¬ IsExtension tinfos t v)
      (hdefault : ∀ i, guards i ≠ .classDefault) : Selects tinfos t guards none

/-- Fortran selects one guard where no two guards are the same. -/
theorem Selects.unique (T : TypeTable Name) {t : Name} {n : ℕ} {guards : Fin n → Guard Name}
    (hinj : Function.Injective guards) {o o' : Option (Fin n)} (h : Selects T.tinfos t guards o)
    (h' : Selects T.tinfos t guards o') : o = o' := by
  cases h with
  | @typeIs j hj =>
    cases h' with
    | typeIs hi => exact congrArg some (hinj (hj.trans hi.symm))
    | classIs hexact => exact absurd hj (hexact j)
    | classDefault hexact => exact absurd hj (hexact j)
    | none hexact => exact absurd hj (hexact j)
  | @classIs j u hexact hj hu hnearest =>
    cases h' with
    | @typeIs i hi => exact absurd hi (hexact i)
    | @classIs i v _ hi hv hnearest' =>
      obtain rfl : u = v := T.isExtension_antisymm (hnearest i v hi hv) (hnearest' j u hj hu)
      exact congrArg some (hinj (hj.trans hi.symm))
    | classDefault _ hclass => exact absurd hu (hclass j u hj)
    | none _ hclass => exact absurd hu (hclass j u hj)
  | @classDefault j hexact hclass hj =>
    cases h' with
    | @typeIs i hi => exact absurd hi (hexact i)
    | @classIs i v _ hi hv => exact absurd hv (hclass i v hi)
    | classDefault _ _ hi => exact congrArg some (hinj (hj.trans hi.symm))
    | none _ _ hdefault => exact absurd hj (hdefault j)
  | none hexact hclass hdefault =>
    cases h' with
    | @typeIs i hi => exact absurd hi (hexact i)
    | @classIs i v _ hi hv => exact absurd hv (hclass i v hi)
    | @classDefault i _ _ hi => exact absurd hi (hdefault i)
    | none => rfl

/-- What the loop has found among the guards it has tried. -/
structure Tried (tinfos : List (Name × Option Name)) (t : Name) {n : ℕ}
    (guards : Fin n → Guard Name)
    (tried : List (Fin n)) (best : Option (Fin n × ℕ)) (default : Option (Fin n)) : Prop where
  exact : ∀ i ∈ tried, guards i ≠ .typeIs t
  best_spec : ∀ b ∈ best, ∃ u, guards b.1 = .classIs u ∧ ancestor tinfos b.2 t = some u
  nearest : ∀ i ∈ tried, ∀ v k, guards i = .classIs v → ancestor tinfos k t = some v →
    ∃ b ∈ best, b.2 ≤ k
  default_spec : ∀ i ∈ default, guards i = .classDefault
  default_seen : ∀ i ∈ tried, guards i = .classDefault → default.isSome

variable {T : TypeTable Name} {t : Name} {n : ℕ} {guards : Fin n → Guard Name}

variable {best : Option (Fin n × ℕ)} {default : Option (Fin n)}

/-- At the end of the loop it has the guard that Fortran selects. -/
theorem Tried.selects {tried : List (Fin n)}
    (h : Tried T.tinfos t guards tried best default) (hall : ∀ i, i ∈ tried) :
    Selects T.tinfos t guards ((best.map Prod.fst).or default) := by
  cases best with
  | some b =>
    obtain ⟨u, hb, hu⟩ := h.best_spec b rfl
    refine .classIs (fun i => h.exact i (hall i)) hb ⟨b.2, hu⟩ ?_
    rintro i v hi ⟨k, hk⟩
    obtain ⟨b', hb', hle⟩ := h.nearest i (hall i) v k hi hk
    obtain rfl : b = b' := Option.some.inj hb'
    exact T.isExtension_of_le hu hk hle
  | none =>
    have hclass : ∀ i v, guards i = .classIs v → ¬ IsExtension T.tinfos t v := by
      rintro i v hi ⟨k, hk⟩
      obtain ⟨b, hb, -⟩ := h.nearest i (hall i) v k hi hk
      exact absurd hb (by simp)
    cases default with
    | some j => exact .classDefault (fun i => h.exact i (hall i)) hclass (h.default_spec j rfl)
    | none =>
      refine .none (fun i => h.exact i (hall i)) hclass fun i hi => ?_
      exact absurd (h.default_seen i (hall i) hi) (by simp)

theorem chooseLoop_selects {tried todo : List (Fin n)}
    (h : Tried T.tinfos t guards tried best default) (hall : ∀ i, i ∈ tried ++ todo) :
    Selects T.tinfos t guards
      (chooseLoop (armAncestorRank T.tinfos t) t
        (todo.map fun j => (guards j, j)) best default) := by
  -- on the guards that are left; `Tried` says what the ones before have led to
  induction todo generalizing tried best default with
  | nil => exact h.selects (by simpa using hall)
  | cons i todo ih =>
    have hall' : ∀ j, j ∈ (tried ++ [i]) ++ todo := by simpa using hall
    have hmem : ∀ {j}, j ∈ tried ++ [i] → j ∈ tried ∨ j = i := by simp
    rw [map_cons]
    cases hi : guards i with
    | classDefault =>
      refine ih ⟨?_, h.best_spec, ?_, ?_, fun _ _ _ => rfl⟩ hall'
      · intro j hj
        rcases hmem hj with hj | rfl
        · exact h.exact j hj
        · simp [hi]
      · intro j hj v k hv hk
        rcases hmem hj with hj | rfl
        · exact h.nearest j hj v k hv hk
        · simp [hi] at hv
      · rintro j ⟨⟩
        exact hi
    | typeIs u =>
      rw [chooseLoop]
      split
      · rename_i hu
        exact .typeIs (hu ▸ hi)
      · rename_i hu
        refine ih ⟨?_, h.best_spec, ?_, h.default_spec, ?_⟩ hall'
        · intro j hj
          rcases hmem hj with hj | rfl
          · exact h.exact j hj
          · simpa [hi] using hu
        · intro j hj v k hv hk
          rcases hmem hj with hj | rfl
          · exact h.nearest j hj v k hv hk
          · simp [hi] at hv
        · intro j hj hdef
          rcases hmem hj with hj | rfl
          · exact h.default_seen j hj hdef
          · simp [hi] at hdef
    | classIs u =>
      have hexact : ∀ j ∈ tried ++ [i], guards j ≠ .typeIs t := by
        intro j hj
        rcases hmem hj with hj | rfl
        · exact h.exact j hj
        · simp [hi]
      have hdefault : ∀ j ∈ tried ++ [i], guards j = .classDefault → default.isSome := by
        intro j hj hdef
        rcases hmem hj with hj | rfl
        · exact h.default_seen j hj hdef
        · simp [hi] at hdef
      rw [chooseLoop]
      split
      · rename_i hr
        refine ih ⟨hexact, h.best_spec, ?_, h.default_spec, hdefault⟩ hall'
        intro j hj v k hv hk
        rcases hmem hj with hj | rfl
        · exact h.nearest j hj v k hv hk
        · obtain rfl : u = v := by simpa [hi] using hv
          rw [(lookup_armAncestorRank T).2 hk] at hr
          exact absurd hr (by simp)
      · rename_i r hr
        have hr' := (lookup_armAncestorRank T).1 hr
        split
        · rename_i hlt
          refine ih ⟨hexact, ?_, ?_, h.default_spec, hdefault⟩ hall'
          · rintro b ⟨⟩
            exact ⟨u, hi, hr'⟩
          · intro j hj v k hv hk
            refine ⟨(i, r), rfl, ?_⟩
            rcases hmem hj with hj | rfl
            · obtain ⟨b, hb, hle⟩ := h.nearest j hj v k hv hk
              exact (hlt b hb).le.trans hle
            · obtain rfl : u = v := by simpa [hi] using hv
              exact (T.depth_unique hr' hk).le
        · rename_i hlt
          refine ih ⟨hexact, h.best_spec, ?_, h.default_spec, hdefault⟩ hall'
          intro j hj v k hv hk
          rcases hmem hj with hj | rfl
          · exact h.nearest j hj v k hv hk
          · obtain rfl : u = v := by simpa [hi] using hv
            simp only [not_forall, not_lt] at hlt
            obtain ⟨b, hb, hle⟩ := hlt
            exact ⟨b, hb, (T.depth_unique hr' hk) ▸ hle⟩

/-- **The loop takes the guard that Fortran selects.** -/
theorem chooseGuard_selects (T : TypeTable Name) (t : Name) {n : ℕ} (guards : Fin n → Guard Name) :
    Selects T.tinfos t guards (chooseGuard T.tinfos t guards) := by
  have hnone : Tried T.tinfos t guards [] none none :=
    ⟨by simp, by simp, by simp, by simp, by simp⟩
  exact chooseLoop_selects hnone fun i => by simp

end SelectType
