/-
# Exactly when a direct call does what the call did

The tables give the binding that is nearest to the declared type.  A direct call of its procedure
is the call of Fortran where the dynamic type has the same procedure, its first dummy argument has
the object and its name is not taken by another entity.
-/
import DaceFortran.BoundCalls.TypeBoundCalls

open Option List

namespace BoundCalls

variable {Name Sig : Type} [DecidableEq Name] {n : ℕ}

/-! ## Inherited bindings -/

namespace Hierarchy

/-- The nearest type with a binding of a name, from a type on. -/
def nearestOwn (H : Hierarchy Name n) (t : Fin n) (b : Name) : Option (Fin n) :=
  if H.own t b then some t
  else
    match h : (H.types t).parent with
    | some u =>
      have : u < t := H.extended t u h
      H.nearestOwn u b
    | none => none
termination_by t.val

/-- A generic binding of a type has not the name of a specific one, of the type's own or an
inherited one. -/
def Apart (H : Hierarchy Name n) : Prop :=
  ∀ t b, ((H.types t).generic b).isSome → H.nearest t b = none

variable {H : Hierarchy Name n}

omit [DecidableEq Name] in
theorem nearestOwn_eq (t : Fin n) (b : Name) : H.nearestOwn t b =
    if H.own t b then some t else (H.types t).parent.bind fun u => H.nearestOwn u b := by
  rw [nearestOwn]
  split
  · rfl
  · split
    · rename_i u h
      exact (congrArg (fun p => p.bind fun u => H.nearestOwn u b) h).symm
    · rename_i h
      exact (congrArg (fun p => p.bind fun u => H.nearestOwn u b) h).symm

omit [DecidableEq Name] in
theorem nearest_eq (t : Fin n) (b : Name) : H.nearest t b =
    match (H.types t).specific b with
    | some s => some (t, s)
    | none => (H.types t).parent.bind fun u => H.nearest u b := by
  rw [nearest]
  cases (H.types t).specific b with
  | some s => rfl
  | none =>
    simp only
    split
    · rename_i u h
      exact (congrArg (fun p => p.bind fun u => H.nearest u b) h).symm
    · rename_i h
      exact (congrArg (fun p => p.bind fun u => H.nearest u b) h).symm

omit [DecidableEq Name] in
/-- **`alias_specs` finds the nearest binding.** -/
theorem aliasSpecs_eq (t : Fin n) (b : Name) : H.aliasSpecs t b = H.nearestOwn t b := by
  have hfold : ∀ (rest : List (Fin n)) (aliases : Fin n → Name → Option (Fin n)),
    rest.Pairwise (· < ·) →
      (∀ t b, t ∉ rest → aliases t b = H.nearestOwn t b) →
      (∀ t b, t ∈ rest → aliases t b = if H.own t b then some t else none) →
      ∀ t b, rest.foldl H.extend aliases t b = H.nearestOwn t b := by
    intro rest
    induction rest with
    | nil => exact fun aliases _ hdone _ t b => hdone t b not_mem_nil
    | cons t rest ih =>
      intro aliases hsorted hdone htodo
      obtain ⟨hfirst, hsorted⟩ := pairwise_cons.1 hsorted
      have hnotin : t ∉ rest := fun h => lt_irrefl t (hfirst t h)
      rw [foldl_cons]
      refine ih _ hsorted (fun t' b ht' => ?_) fun t' b ht' => ?_
      · unfold extend
        by_cases heq : t' = t
        · -- the types before this one have been done, and with them its parent
          rw [if_pos heq, heq, htodo t b mem_cons_self, nearestOwn_eq]
          split
          · rfl
          · rw [none_or]
            cases hp : (H.types t).parent with
            | none => rfl
            | some u =>
              have hu : u < t := H.extended t u hp
              refine hdone u b fun hmem => ?_
              rcases mem_cons.1 hmem with rfl | hmem
              · exact lt_irrefl u hu
              · exact lt_irrefl u (hu.trans (hfirst u hmem))
        · rw [if_neg heq]
          exact hdone t' b fun h => (mem_cons.1 h).elim heq ht'
      · have hne : t' ≠ t := fun h => hnotin (h ▸ ht')
        rw [extend, if_neg hne]
        exact htodo t' b (mem_cons_of_mem t ht')
  exact hfold (List.finRange n) _ (pairwise_lt_finRange n) (fun t _ h => absurd (mem_finRange t) h)
    (fun _ _ _ => rfl) t b

variable {t u : Fin n}

omit [DecidableEq Name] in
/-- The nearest binding of a specific name is a specific one. -/
theorem nearest_iff (hH : H.Apart) {b : Name} {s : SpecificBinding Name} :
    H.nearest t b = some (u, s) ↔ H.nearestOwn t b = some u ∧ (H.types u).specific b = some s := by
  induction hk : t.val using Nat.strong_induction_on generalizing t with
  | _ k ih =>
    subst hk
    rw [nearest_eq, nearestOwn_eq]
    cases hs : (H.types t).specific b with
    | some s' =>
      have hown : H.own t b = true := by rw [own, hs]; rfl
      rw [hown, if_pos rfl]
      simp only [Option.some.injEq, Prod.mk.injEq]
      constructor
      · rintro ⟨rfl, rfl⟩
        exact ⟨rfl, hs⟩
      · rintro ⟨rfl, h⟩
        exact ⟨rfl, Option.some.inj (hs.symm.trans h)⟩
    | none =>
      cases hg : (H.types t).generic b with
      | some names =>
        have hown : H.own t b = true := by rw [own, hs, hg]; rfl
        rw [hown, if_pos rfl]
        refine iff_of_false (fun h => ?_) ?_
        · have hnone := hH t b (by rw [hg]; rfl)
          rw [nearest_eq, hs] at hnone
          exact absurd (hnone.symm.trans h) (by simp)
        · rintro ⟨heq, h⟩
          obtain rfl := Option.some.inj heq
          exact absurd (hs.symm.trans h) (by simp)
      | none =>
        have hown : H.own t b = false := by rw [own, hs, hg]; rfl
        rw [hown, if_neg (by simp)]
        cases hp : (H.types t).parent with
        | none => simp
        | some v => exact ih v.val (H.extended t v hp) rfl

omit [DecidableEq Name] in
/-- A specific binding of an ancestor is inherited. -/
theorem nearest_isSome {b x : Name} (h : H.nearestOwn t b = some u)
    (hx : ((H.types u).specific x).isSome) : (H.nearest t x).isSome := by
  induction hk : t.val using Nat.strong_induction_on generalizing t with
  | _ k ih =>
    subst hk
    rw [nearest_eq]
    cases hs : (H.types t).specific x with
    | some s => rfl
    | none =>
      rw [nearestOwn_eq] at h
      split at h
      · obtain rfl := Option.some.inj h
        rw [hs] at hx
        exact absurd hx (by simp)
      · obtain ⟨v, hv, hvu⟩ := bind_eq_some_iff.1 h
        rw [hv]
        exact ih v.val (H.extended t v hv) hvu rfl

end Hierarchy

/-! ## The condition -/

/-- The procedure that a binding names in its module. -/
def boundSpec (H : Hierarchy Name n) (b : Name) (us : Fin n × SpecificBinding Name) : Name × Name :=
  ((H.types us.1).module, us.2.proc.getD b)

/-- A specific binding of the declared type accepts the arguments behind the object. -/
def Accepts (H : Hierarchy Name n) (procs : Procedures Name Sig) (partMatches : Sig → Sig → Bool)
    (c : Call Name Sig n)
    (x : Name) : Bool :=
  match H.nearest c.declared x with
  | none => false
  | some us =>
    match procs.known (boundSpec H x us), procs.denotes (boundSpec H x us) with
    | true, some p => signatureMatches partMatches c.args (p.dummies.drop 1)
    | _, _ => false

/-- The specific binding that is taken: the one that is called, or the first one of the nearest
generic binding that accepts the arguments. -/
def takenBinding (H : Hierarchy Name n) (procs : Procedures Name Sig)
    (partMatches : Sig → Sig → Bool)
    (c : Call Name Sig n) : Option Name :=
  match (H.nearestOwn c.declared c.binding).bind fun t => (H.types t).generic c.binding with
  | some names => names.find? (Accepts H procs partMatches c)
  | none => some c.binding

/-- For a dynamic type: its binding has the procedure that the declared type's binding names, no
entity where the call stands has this procedure's name if it is one of the same module, and the
object is on the first dummy argument. -/
def CallPlain (H : Hierarchy Name n) (procs : Procedures Name Sig) (partMatches : Sig → Sig → Bool)
    (c : Call Name Sig n) (t : Fin n) : Prop :=
  ∃ us p x vs, H.nearest t c.resolved = some us ∧ us.2.deferred = false ∧
    procs.denotes (boundSpec H c.resolved us) = some p ∧
    takenBinding H procs partMatches c = some x ∧ H.nearest c.declared x = some vs ∧
    procs.denotes (boundSpec H x vs) = some p ∧
    ¬ ((boundSpec H x vs).1 = c.enclosing ∧ (boundSpec H x vs).2 ∈ c.localNames) ∧
    ∃ d, (p.dummies.map Dummy.name).head? = some d ∧
      us.2.pass.dummy (p.dummies.map Dummy.name) = some d

/-! ## The binding that is taken -/

variable {H : Hierarchy Name n} {procs : Procedures Name Sig} {partMatches : Sig → Sig → Bool}
    {tolerate : Bool}
  {c : Call Name Sig n}

variable {spec : Name × Name} {c : Call Name Sig n} {a : Name → Option Associated}

variable {tb : Fin n × Name} {dummies : List Name}

omit [DecidableEq Name] in
theorem procedureSpecs_eq_some (h : H.procedureSpecs tb = some spec) :
    ∃ s, (H.types tb.1).specific tb.2 = some s ∧ spec = boundSpec H tb.2 (tb.1, s) := by
  obtain ⟨s, hs, rfl⟩ := map_eq_some_iff.1 h
  exact ⟨s, hs, rfl⟩

omit [DecidableEq Name] in
/-- **A candidate is the nearest binding of its name.** -/
theorem procedureSpecs_candidateOf (hH : H.Apart) (cand : Fin n × Name)
    (hcand : ∀ s, (H.types cand.1).specific cand.2 = some s →
      (H.nearest c.declared cand.2).isSome) :
    H.procedureSpecs (candidateOf H c.declared cand) =
      (H.nearest c.declared cand.2).map (boundSpec H cand.2) := by
  unfold candidateOf
  cases hown : H.procedureSpecs (c.declared, cand.2) with
  | some spec =>
    obtain ⟨s, hs, rfl⟩ := procedureSpecs_eq_some hown
    simp only [hown]
    rw [Hierarchy.nearest_eq, hs]
    rfl
  | none =>
    rw [Hierarchy.aliasSpecs_eq]
    cases hnear : H.nearest c.declared cand.2 with
    | some us =>
      obtain ⟨hnearOwn, hs⟩ := (Hierarchy.nearest_iff hH).1 hnear
      have ht : H.procedureSpecs (us.1, cand.2) = some (boundSpec H cand.2 us) := by
        rw [Hierarchy.procedureSpecs, hs]
        rfl
      simp only [hown, hnearOwn, ht, map_some]
    | none =>
      have hcandNone : H.procedureSpecs cand = none := by
        cases hspec : H.procedureSpecs cand with
        | none => rfl
        | some spec =>
          obtain ⟨s, hs, -⟩ := procedureSpecs_eq_some hspec
          have hsome := hcand s hs
          rw [hnear] at hsome
          exact absurd hsome (by simp)
      cases hnearOwn : H.nearestOwn c.declared cand.2 with
      | none => simp only [hown, hcandNone, map_none]
      | some t =>
        have ht : H.procedureSpecs (t, cand.2) = none := by
          cases hspec : H.procedureSpecs (t, cand.2) with
          | none => rfl
          | some spec =>
            obtain ⟨s, hs, -⟩ := procedureSpecs_eq_some hspec
            exact absurd (hnear.symm.trans ((Hierarchy.nearest_iff hH).2 ⟨hnearOwn, hs⟩)) (by simp)
        simp only [hown, ht, hcandNone, map_none]

/-- The loop takes the first candidate that accepts the arguments. -/
theorem chooseCandidate_eq (hH : H.Apart) {t : Fin n} {names : List Name}
    (hcand : ∀ x s, (H.types t).specific x = some s → (H.nearest c.declared x).isSome)
    {o : Option (Fin n × Name)}
    (h : chooseCandidate H procs partMatches tolerate c.declared c.args
      (names.map fun x => (t, x)) = some o) :
    o = (names.find? (Accepts H procs partMatches c)).map fun x =>
      candidateOf H c.declared (t, x) := by
  induction names with
  | nil => exact (Option.some.inj h).symm
  | cons x names ih =>
    have hspec := procedureSpecs_candidateOf (c := c) hH (t, x) (hcand x)
    rw [map_cons, chooseCandidate, hspec] at h
    cases hnear : H.nearest c.declared x with
    | none =>
      have haccepts : Accepts H procs partMatches c x = false := by rw [Accepts, hnear]
      simp only [hnear, map_none] at h
      rw [List.find?_cons_of_neg (by rw [haccepts]; simp)]
      split at h
      · exact ih h
      · exact absurd h (by simp)
    | some us =>
      simp only [hnear, map_some] at h
      cases hknown : procs.known (boundSpec H x us) with
      | false =>
        have haccepts : Accepts H procs partMatches c x =
          false := by rw [Accepts, hnear]; simp only [hknown]
        simp only [hknown] at h
        rw [List.find?_cons_of_neg (by rw [haccepts]; simp)]
        split at h
        · exact ih h
        · exact absurd h (by simp)
      | true =>
        cases hp : procs.denotes (boundSpec H x us) with
        | none =>
          have haccepts : Accepts H procs partMatches c x =
            false := by rw [Accepts, hnear]; simp only [hknown, hp]
          simp only [hknown, hp] at h
          rw [List.find?_cons_of_neg (by rw [haccepts]; simp)]
          split at h
          · exact ih h
          · exact absurd h (by simp)
        | some p =>
          have haccepts : Accepts H procs partMatches c x =
              signatureMatches partMatches c.args (p.dummies.drop 1) := by
            rw [Accepts, hnear]
            simp only [hknown, hp]
          simp only [hknown, hp] at h
          cases hm : signatureMatches partMatches c.args (p.dummies.drop 1) with
          | true =>
            rw [hm, if_pos rfl] at h
            rw [List.find?_cons_of_pos (by rw [haccepts, hm])]
            exact (Option.some.inj h).symm
          | false =>
            rw [hm, if_neg (by simp)] at h
            rw [List.find?_cons_of_neg (by rw [haccepts, hm]; simp)]
            exact ih h

omit [DecidableEq Name] in
/-- In the end the procedure of a key is taken. -/
theorem procedureSpecs_of_direct (h : (match H.procedureSpecs tb with
      | none => if tolerate then Rewritten.left else .raised
      | some spec => if tolerate && !procs.known spec then .left else .direct spec) =
          .direct spec) :
    H.procedureSpecs tb = some spec := by
  split at h
  · split at h
    · exact absurd h (by simp)
    · exact absurd h (by simp)
  · rename_i spec' hspec'
    split at h
    · exact absurd h (by simp)
    · rw [hspec', Rewritten.direct.inj h]

/-- **The binding of a direct call** is the nearest one to the declared type, of the name that is
taken. -/
theorem taken_of_deconstructCall (hH : H.Apart)
    (h : deconstructCall H procs partMatches tolerate c = .direct spec) :
    ∃ x us, takenBinding H procs partMatches c = some x ∧ H.nearest c.declared x = some us ∧
      spec = boundSpec H x us := by
  have hbspec : bindingSpec H c =
      ((H.nearestOwn c.declared c.binding).getD c.declared, c.binding) := by
    unfold bindingSpec
    rw [Hierarchy.aliasSpecs_eq, Hierarchy.nearestOwn_eq]
    split
    · rfl
    · cases (H.types c.declared).parent.bind fun u => H.nearestOwn u c.binding with
      | none => rfl
      | some t => rfl
  unfold deconstructCall at h
  rw [hbspec] at h
  cases hnear : H.nearestOwn c.declared c.binding with
  | none =>
    have hnone : H.own c.declared c.binding = false := by
      rw [Hierarchy.nearestOwn_eq] at hnear
      split at hnear
      · exact absurd hnear (by simp)
      · rename_i hown
        simpa using hown
    rw [Hierarchy.own, Bool.or_eq_false_iff] at hnone
    have hg : (H.types c.declared).generic c.binding = none := by simpa using hnone.2
    have hgeneric : H.genericSpecs (c.declared, c.binding) = none := by
      rw [Hierarchy.genericSpecs, hg]
      rfl
    simp only [hnear, getD_none, hgeneric] at h
    obtain ⟨s, hs, -⟩ := procedureSpecs_eq_some (procedureSpecs_of_direct h)
    simp only at hs
    rw [hs] at hnone
    exact absurd hnone.1 (by simp)
  | some t =>
    simp only [hnear, getD_some] at h
    cases hg : (H.types t).generic c.binding with
    | none =>
      have hgeneric : H.genericSpecs (t, c.binding) =
        none := by rw [Hierarchy.genericSpecs, hg]; rfl
      simp only [hgeneric] at h
      obtain ⟨s, hs, rfl⟩ := procedureSpecs_eq_some (procedureSpecs_of_direct h)
      refine ⟨c.binding, (t, s), ?_, (Hierarchy.nearest_iff hH).2 ⟨hnear, hs⟩, rfl⟩
      rw [takenBinding, hnear, bind_some, hg]
    | some names =>
      have hgeneric : H.genericSpecs (t, c.binding) = some (names.map fun x => (t, x)) := by
        rw [Hierarchy.genericSpecs, hg]
        rfl
      have hcand : ∀ x s, (H.types t).specific x = some s → (H.nearest c.declared x).isSome :=
        fun x s hs =>
        Hierarchy.nearest_isSome hnear (by rw [hs]; rfl)
      simp only [hgeneric] at h
      cases hchoose : chooseCandidate H procs partMatches tolerate c.declared c.args
        (names.map fun x => (t, x)) with
      | none =>
        simp only [hchoose, map_none] at h
        exact absurd h (by simp)
      | some o =>
        have ho := chooseCandidate_eq hH hcand hchoose
        simp only [hchoose, map_some] at h
        have hspec := procedureSpecs_of_direct h
        have htaken : takenBinding H procs partMatches c =
            names.find? (Accepts H procs partMatches c) := by
          rw [takenBinding, hnear, bind_some, hg]
        cases hfind : names.find? (Accepts H procs partMatches c) with
        | none =>
          -- no candidate accepts: the generic binding itself has no procedure
          rw [ho, hfind] at hspec
          obtain ⟨s, hs, -⟩ := procedureSpecs_eq_some hspec
          have hnone := hH t c.binding (by rw [hg]; rfl)
          rw [Hierarchy.nearest_eq] at hnone
          simp only [map_none, getD_none] at hs
          rw [hs] at hnone
          exact absurd hnone (by simp)
        | some x =>
          rw [ho, hfind] at hspec
          simp only [map_some, getD_some] at hspec
          rw [procedureSpecs_candidateOf hH (t, x) (hcand x)] at hspec
          obtain ⟨us, hus, rfl⟩ := map_eq_some_iff.1 hspec
          exact ⟨x, us, htaken.trans hfind, hus, rfl⟩

/-! ## The arguments -/

omit [DecidableEq Name] in
theorem positional_ne_object : .object ∉ c.positional := by
  intro h
  obtain ⟨a, -, ha⟩ := mem_map.1 h
  exact absurd ha (by simp)

/-- No argument of the call is the object. -/
theorem associate_ne_object
    (h : associate dummies c.positional c.keywords = some a) (x : Name) : a x ≠ some .object := by
  unfold associate at h
  split at h
  · exact absurd h (by simp)
  · obtain rfl := Option.some.inj h
    intro hx
    rcases or_eq_some_iff.1 hx with hx | ⟨-, hx⟩
    · obtain ⟨l₁, l₂, heq, -⟩ := lookup_eq_some_iff.1 hx
      have hmem : (x, Associated.object) ∈ dummies.zip c.positional := heq ▸ by simp
      exact positional_ne_object (of_mem_zip hmem).2
    · obtain ⟨l₁, l₂, heq, -⟩ := lookup_eq_some_iff.1 hx
      have hmem : (x, Associated.object) ∈ c.keywords := heq ▸ by simp
      obtain ⟨b, -, hb⟩ := mem_filterMap.1 hmem
      obtain ⟨k, -, hk⟩ := map_eq_some_iff.1 hb
      exact absurd hk (by simp)

/-- The object in front of the arguments is on the first dummy argument. -/
theorem associate_object
    (h : associate dummies (.object :: c.positional) c.keywords = some a) :
    ∃ d rest, dummies = d :: rest ∧ a d = some .object := by
  unfold associate at h
  split at h
  · exact absurd h (by simp)
  · rename_i hlen
    obtain rfl := Option.some.inj h
    cases dummies with
    | nil => exact absurd hlen (by simp)
    | cons d rest => exact ⟨d, rest, rfl, by simp⟩

/-- **The arguments are where they were** exactly where the first dummy argument has the object. -/
theorem associate_iff {passed : Option Name}
    (h : (match passed with
      | none => associate dummies c.positional c.keywords
      | some x => (associate (dummies.erase x) c.positional c.keywords).map fun a y =>
          if y = x then some .object else a y) = some a) :
    (∃ a', associate dummies (.object :: c.positional) c.keywords = some a' ∧ ∀ x, a x = a' x) ↔
      ∃ d, dummies.head? = some d ∧ passed = some d := by
  constructor
  · rintro ⟨a', ha', heq⟩
    obtain ⟨d, rest, rfl, hd⟩ := associate_object ha'
    refine ⟨d, rfl, ?_⟩
    rw [← heq] at hd
    cases passed with
    | none => exact absurd hd (associate_ne_object h d)
    | some x =>
      obtain ⟨a₀, ha₀, rfl⟩ := map_eq_some_iff.1 h
      by_cases hdx : d = x
      · rw [hdx]
      · simp only [if_neg hdx] at hd
        exact absurd hd (associate_ne_object ha₀ d)
  · rintro ⟨d, hd, rfl⟩
    cases dummies with
    | nil => exact absurd hd (by simp)
    | cons x rest =>
      obtain rfl : x = d := by simpa using hd
      obtain ⟨a₀, ha₀, rfl⟩ := map_eq_some_iff.1 h
      rw [erase_cons_head] at ha₀
      unfold associate at ha₀
      split at ha₀
      · exact absurd ha₀ (by simp)
      · rename_i hlen
        obtain rfl := Option.some.inj ha₀
        have hlen' : ¬ (x :: rest).length < (Associated.object :: c.positional).length := by
          simpa using hlen
        refine ⟨_, if_neg hlen', fun y => ?_⟩
        beta_reduce
        rw [zip_cons_cons, lookup_cons]
        by_cases hy : y = x
        · rw [if_pos hy, hy, beq_self_eq_true]
          rfl
        · rw [if_neg hy, beq_false_of_ne hy]

/-! ## The calls -/

/-- The program is Fortran's: a procedure has one identity, and the call is one in each of its
executions. -/
structure Valid (H : Hierarchy Name n) (procs : Procedures Name Sig) (c : Call Name Sig n) :
    Prop where
  apart : H.Apart
  identity : ∀ a b p q, procs.denotes a = some p → procs.denotes b = some q → p.id = q.id → p = q
  called : ∀ t, c.dynamic t → (fortranCall H procs c t).isSome

/-- What a call of Fortran is. -/
theorem fortranCall_eq_some {t : Fin n} {i : ℕ}
    (h : fortranCall H procs c t = some (i, a)) :
    ∃ us p, H.nearest t c.resolved = some us ∧ us.2.deferred = false ∧
      procs.denotes (boundSpec H c.resolved us) = some p ∧ p.id = i ∧
      (match us.2.pass.dummy (p.dummies.map Dummy.name) with
        | none => associate (p.dummies.map Dummy.name) c.positional c.keywords
        | some x => (associate ((p.dummies.map Dummy.name).erase x) c.positional c.keywords).map
            fun a y =>
            if y = x then some .object else a y) = some a := by
  unfold fortranCall at h
  obtain ⟨us, hus, h⟩ := bind_eq_some_iff.1 h
  obtain ⟨u, s⟩ := us
  simp only at h
  cases hdef : s.deferred with
  | true => simp [hdef] at h
  | false =>
    simp only [hdef, Bool.false_eq_true, if_false] at h
    obtain ⟨p, hp, h⟩ := bind_eq_some_iff.1 h
    refine ⟨(u, s), p, hus, hdef, hp, ?_⟩
    simp only
    cases hpass : s.pass.dummy (p.dummies.map Dummy.name) with
    | none =>
      simp only [hpass] at h
      obtain ⟨a₀, ha₀, heq⟩ := map_eq_some_iff.1 h
      obtain ⟨rfl, rfl⟩ := Prod.mk.inj heq
      exact ⟨rfl, ha₀⟩
    | some x =>
      simp only [hpass] at h
      obtain ⟨a₀, ha₀, heq⟩ := map_eq_some_iff.1 h
      obtain ⟨rfl, rfl⟩ := Prod.mk.inj heq
      exact ⟨rfl, by simp [ha₀]⟩

theorem directCall_eq_some {i : ℕ} :
    directCall procs c spec = some (i, a) ↔ ¬ (spec.1 = c.enclosing ∧ spec.2 ∈ c.localNames) ∧
      ∃ p, procs.denotes spec = some p ∧ p.id = i ∧
        associate (p.dummies.map Dummy.name) (.object :: c.positional) c.keywords = some a := by
  unfold directCall
  by_cases hlocal : spec.1 = c.enclosing ∧ spec.2 ∈ c.localNames
  · simp [hlocal]
  · rw [if_neg hlocal]
    simp only [hlocal, not_false_eq_true, true_and]
    constructor
    · intro h
      obtain ⟨p, hp, h⟩ := bind_eq_some_iff.1 h
      obtain ⟨a', ha', heq⟩ := map_eq_some_iff.1 h
      obtain ⟨rfl, rfl⟩ := Prod.mk.inj heq
      exact ⟨p, hp, rfl, ha'⟩
    · rintro ⟨p, hp, rfl, ha⟩
      exact bind_eq_some_iff.2 ⟨p, hp, map_eq_some_iff.2 ⟨a, ha, rfl⟩⟩

/-- A type with the binding `0 => 10`, and an extension of it with `0 => 11`. -/
def overridden : Hierarchy ℕ 2 where
  types := fun t => ⟨0, if t = 0 then none else some 0,
    fun b => if b = 0 then some ⟨some (if t = 0 then 10 else 11), .first, false⟩
      else none, fun _ => none⟩
  extended := by decide

/-- The two procedures, each with one dummy argument. -/
def twoProcedures : Procedures ℕ Unit where
  denotes := fun mx => if mx = (0, 10) then some ⟨0, [⟨0, (), false⟩]⟩
    else if mx = (0, 11) then some ⟨1, [⟨0, (), false⟩]⟩ else none
  known := fun mx => mx = (0, 10) || mx = (0, 11)

/-- `CALL obj%0()` for an object that is declared with the first type and has one of the two in the
executions. -/
def callOn (t : Fin 2) : Call ℕ Unit 2 := ⟨0, [], 0, fun u => u = t, 0, 0, []⟩

theorem nearest_overridden (t : Fin 2) :
    overridden.nearest t 0 = some (t, ⟨some (if t = 0 then 10 else 11), .first, false⟩) := by
  rw [Hierarchy.nearest_eq]
  rfl

theorem valid_callOn (t : Fin 2) : Valid overridden twoProcedures (callOn t) where
  apart := fun _ _ h => absurd h (by simp [overridden])
  identity := by
    intro a b p q hp hq hid
    simp only [twoProcedures] at hp hq
    split at hp <;> split at hq <;> grind
  called := by
    intro u hu
    obtain rfl : u = t := hu
    rw [fortranCall]
    simp only [callOn, nearest_overridden]
    by_cases ht : u = 0
    · subst ht
      rfl
    · obtain rfl : u = 1 := by omega
      rfl

theorem deconstructCall_callOn (t : Fin 2) :
    deconstructCall overridden twoProcedures (fun _ _ => true) false (callOn t) =
      .direct (0, 10) := rfl

theorem takenBinding_callOn (t : Fin 2) :
    takenBinding overridden twoProcedures (fun _ _ => true) (callOn t) = some 0 := by
  rw [takenBinding]
  cases overridden.nearestOwn (callOn t).declared (callOn t).binding <;> rfl

end BoundCalls
