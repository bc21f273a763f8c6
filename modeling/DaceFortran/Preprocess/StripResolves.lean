/-
# Conditionals resolved

What is left of each group of a balanced source, at the place where it stands: of a group
on `_OPENMP` or `_OPENACC` the lines of at most one arm, the arm cpp would keep when there
is no `#elif`; of any other conditional its directives, unless an arm around it is dropped.
The pass achieves this unless an `#else` comes after an `#elif` of a group whose first arm
was kept (`stripOpenmp_resolved_iff`): the flag it flips there no longer says so.
-/
import DaceFortran.Preprocess.Conditionals

namespace Preprocess

/-! ## Places in a source -/

/-- What is left of the lines `seg` that stand after the lines `pre`. -/
def survivors (pre seg : List Line) : List Line := emitFrom (stackAfter [] pre) seg

/-- A group of the source after the lines `pre`; `encl` has, for each arm on the two macros around
it, the lines before that arm. -/
inductive Occurs :
    Body → List Line → List (List Line) → Line → Option Bool → Arms → Line → Prop
  | here {o e : Line} {omp : Option Bool} {ho : classify o = .opener omp} {arms : Arms}
      {he : classify e = .endif} {rest : Body} :
      Occurs (.group o omp ho arms e he rest) [] [] o omp arms e
  | line {l o e : Line} {h : classify l = .plain} {rest : Body} {pre : List Line}
      {encl : List (List Line)} {omp : Option Bool} {arms : Arms} :
      Occurs rest pre encl o omp arms e →
      Occurs (.line l h rest) (l :: pre) (encl.map fun p => l :: p) o omp arms e
  | after {o' e' o e : Line} {omp' : Option Bool} {ho' : classify o' = .opener omp'} {arms' : Arms}
      {he' : classify e' = .endif} {rest : Body} {pre : List Line} {encl : List (List Line)}
      {omp : Option Bool} {arms : Arms} :
      Occurs rest pre encl o omp arms e →
      Occurs (.group o' omp' ho' arms' e' he' rest) (o' :: (arms'.flatten ++ e' :: pre))
        (encl.map fun p => o' :: (arms'.flatten ++ e' :: p)) o omp arms e
  | inside {o' e' o e : Line} {omp' : Option Bool} {ho' : classify o' = .opener omp'} {arms' : Arms}
      {he' : classify e' = .endif} {rest : Body} {q : List Line × Body} {pre : List Line}
      {encl : List (List Line)} {omp : Option Bool} {arms : Arms} :
      q ∈ arms'.segments → Occurs q.2 pre encl o omp arms e →
      Occurs (.group o' omp' ho' arms' e' he' rest) (o' :: (q.1 ++ pre))
        ((if omp'.isSome then [o' :: q.1] else []) ++ encl.map fun p => o' ::
          (q.1 ++ p)) o omp arms e

/-- The directives of a group, each with the lines before it. -/
def directives (pre : List Line) (o : Line) (arms : Arms) (e : Line) : List (List Line × Line) :=
  (pre, o) :: (arms.mids.map (fun q => (pre ++ o :: q.1, q.2)) ++ [(pre ++ o :: arms.flatten, e)])

/-- The arm that starts after these lines survives: an ordinary line would be left there. -/
def ArmSurvives (pre : List Line) : Prop :=
  ∀ l, classify l = .plain → inert l = false → survivors pre [l] = [l]

/-- The arms of a group of which some line is left, from a stack. -/
def liveArms (s : Stack) (o : Line) (arms : Arms) : List (List Line × Body) :=
  arms.segments.filter fun q => !(emitFrom (stackAfter s (o :: q.1)) q.2.flatten).isEmpty

/-- Conditionals resolved as cpp does with neither macro defined. -/
structure Resolved (t : Body) : Prop where
  one_arm : ∀ pre encl o drop arms e, Occurs t pre encl o (some drop) arms e →
    (liveArms (stackAfter [] pre) o arms).length ≤ 1
  fi_arm : ∀ pre encl o drop b e, Occurs t pre encl o (some drop) (.fi b) e →
    survivors (pre ++ [o]) b.flatten = if drop then [] else survivors pre b.flatten
  else_arms : ∀ pre encl o drop b d hd c e, Occurs t pre encl o (some drop) (.els b d hd c) e →
    survivors (pre ++ [o]) b.flatten = (if drop then [] else survivors pre b.flatten) ∧
      survivors (pre ++ o :: (b.flatten ++ [d])) c.flatten =
        if drop then survivors pre c.flatten else []
  unrelated : ∀ pre encl o arms e, Occurs t pre encl o none arms e →
    ∀ q ∈ directives pre o arms e, survivors q.1 [q.2] = [q.2] ↔ ∀ p ∈ encl, ArmSurvives p
  balanced : ∃ out : Body, emitFrom [] t.flatten = out.flatten

/-! ## The condition -/

/-- An `#elif` and an `#else`, with lines to be seen in the first arm and in the `#else` arm. -/
def Arms.Twice : Arms → Prop
  | .elif b _ _ rest => b.visible = true ∧ rest.shown true = true
  | _ => False

mutual

/-- Outside dropped arms no group whose first arm is kept has lines to be seen there and in an
`#else` arm after an `#elif`. -/
def Body.Clean : Body → Prop
  | .nil => True
  | .line _ _ rest => rest.Clean
  | .group _ none _ arms _ _ rest => arms.Clean ∧ rest.Clean
  | .group _ (some drop) _ arms _ _ rest =>
    (drop = false → ¬ arms.Twice) ∧ arms.KeptClean drop ∧ rest.Clean

/-- All arms are clean. -/
def Arms.Clean : Arms → Prop
  | .fi b => b.Clean
  | .els b _ _ c => b.Clean ∧ c.Clean
  | .elif b _ _ rest => b.Clean ∧ rest.Clean

/-- The arms that are not dropped are clean. -/
def Arms.KeptClean : Arms → Bool → Prop
  | .fi b, drop => drop = true ∨ b.Clean
  | .els b _ _ c, drop => (drop = true ∨ b.Clean) ∧ (drop = false ∨ c.Clean)
  | .elif b _ _ rest, drop => (drop = true ∨ b.Clean) ∧ rest.KeptClean true

end

/-! ## Stacks at places -/

variable {q : List Line × Body} {encl : List (List Line)} {o : Line}

theorem Arms.stackAfter_segment (arms : Arms) (s : Stack)
    (hq : q ∈ arms.segments) :
    stackAfter (⟨false, false⟩ :: s) q.1 = ⟨false, false⟩ :: s := by
  induction arms using Arms.segments.induct generalizing q with
  | case1 b =>
    obtain rfl : q = ([], b) := by simpa [Arms.segments] using hq
    rfl
  | case2 b d hd c =>
    rw [Arms.segments] at hq
    rcases List.mem_cons.mp hq with rfl | hq
    · rfl
    · obtain rfl : q = (b.flatten ++ [d], c) := by simpa using hq
      rw [stackAfter_append, b.stackAfter_flatten, stackAfter_cons,
        turn_arm (.inl hd), stackAfter_nil]
  | case3 b d hd rest ih =>
    rw [Arms.segments] at hq
    rcases List.mem_cons.mp hq with rfl | hq
    · rfl
    · obtain ⟨q', hq', rfl⟩ := List.mem_map.mp hq
      rw [stackAfter_append, b.stackAfter_flatten, stackAfter_cons, turn_arm (.inr hd)]
      exact ih hq'

theorem Arms.stackAfter_segment_omp (arms : Arms) (drop : Bool) (s : Stack)
    (hq : q ∈ arms.segments) :
    ∃ drop', stackAfter (⟨true, drop⟩ :: s) q.1 = ⟨true, drop'⟩ :: s := by
  induction arms using Arms.segments.induct generalizing q drop with
  | case1 b =>
    obtain rfl : q = ([], b) := by simpa [Arms.segments] using hq
    exact ⟨drop, rfl⟩
  | case2 b d hd c =>
    rw [Arms.segments] at hq
    rcases List.mem_cons.mp hq with rfl | hq
    · exact ⟨drop, rfl⟩
    · obtain rfl : q = (b.flatten ++ [d], c) := by simpa using hq
      refine ⟨!drop, ?_⟩
      rw [stackAfter_append, b.stackAfter_flatten, stackAfter_cons, turn_els_omp hd, stackAfter_nil]
  | case3 b d hd rest ih =>
    rw [Arms.segments] at hq
    rcases List.mem_cons.mp hq with rfl | hq
    · exact ⟨drop, rfl⟩
    · obtain ⟨q', hq', rfl⟩ := List.mem_map.mp hq
      rw [stackAfter_append, b.stackAfter_flatten, stackAfter_cons, turn_elif_omp hd]
      exact ih true hq'

variable {arms : Arms} {o e : Line} {omp : Option Bool} {pre : List Line} {drop : Bool}

/-- **At a group**, lines are dropped exactly when they are in one of the arms around it. -/
theorem Occurs.dead_iff {t : Body}
    (h : Occurs t pre encl o omp arms e) (s : Stack) :
    dead (stackAfter s pre) = true ↔
      dead s = true ∨ ∃ p ∈ encl, dead (stackAfter s p) = true := by
  induction h generalizing s with
  | here => simp
  | @line l _ _ hl _ _ _ _ _ _ ih =>
    rw [stackAfter_cons, turn_plain hl, ih s]
    simp [turn_plain hl]
  | @after o' e' _ _ omp' ho' arms' he' rest pre _ _ _ _ ih =>
    have hgroup : ∀ p, stackAfter s (o' :: (arms'.flatten ++ e' :: p)) = stackAfter s p := by
      intro p
      have hend := (Body.group o' omp' ho' arms' e' he' .nil).stackAfter_flatten s
      have happ : o' :: (arms'.flatten ++ e' :: p) =
          (Body.group o' omp' ho' arms' e' he' .nil).flatten ++ p := by simp [Body.flatten]
      rw [happ, stackAfter_append, hend]
    rw [hgroup, ih s]
    simp [hgroup]
  | @inside o' e' _ _ omp' ho' arms' he' rest q pre encl _ _ hq _ ih =>
    have hin : ∀ p, stackAfter s (o' :: (q.1 ++ p)) = stackAfter (stackAfter s (o' :: q.1)) p := by
      intro p
      rw [← List.cons_append, stackAfter_append]
    rw [hin, ih]
    cases omp' with
    | none =>
      have hdead : dead (stackAfter s (o' :: q.1)) = dead s := by
        rw [stackAfter_cons, turn_opener ho', arms'.stackAfter_segment s hq]
        rfl
      simp only [Option.isSome_none, Bool.false_eq_true, if_false, List.nil_append, List.mem_map,
        exists_exists_and_eq_and, hin, hdead]
    | some drop =>
      obtain ⟨drop', hstack⟩ := arms'.stackAfter_segment_omp drop s hq
      have hdead : dead s = true → dead (stackAfter s (o' :: q.1)) = true := by
        intro hs
        rw [stackAfter_cons, turn_omp ho', hstack, dead_cons, hs, Bool.or_true]
      simp only [Option.isSome_some, if_true, List.singleton_append, List.mem_cons,
        List.mem_map, exists_eq_or_imp, exists_exists_and_eq_and, hin]
      tauto

theorem armSurvives_iff (pre : List Line) :
    ArmSurvives pre ↔ dead (stackAfter [] pre) = false := by
  have hline : ∀ l, classify l = .plain → inert l = false →
      (survivors pre [l] = [l] ↔ dead (stackAfter [] pre) = false) := by
    intro l hl hi
    unfold survivors
    rw [emitFrom_cons, turn_plain hl]
    unfold keep
    rw [hi]
    cases dead (stackAfter [] pre) <;> simp
  constructor
  · intro h
    have hempty : classify [] = .plain := by decide
    exact (hline [] hempty (by decide)).mp (h [] hempty (by decide))
  · intro h l hl hi
    exact (hline l hl hi).mpr h

/-! ## Other conditionals -/

/-- The `#elif` and `#else` lines of another conditional. -/
theorem Arms.turn_mid (arms : Arms) (s : Stack) {q : List Line × Line} (hq : q ∈ arms.mids) :
    turn (stackAfter (⟨false, false⟩ :: s) q.1) q.2 = (⟨false, false⟩ :: s, !dead s) := by
  induction arms using Arms.mids.induct generalizing q with
  | case1 b => simp [Arms.mids] at hq
  | case2 b d hd c =>
    obtain rfl : q = (b.flatten, d) := by simpa [Arms.mids] using hq
    rw [b.stackAfter_flatten, turn_arm (.inl hd)]
  | case3 b d hd rest ih =>
    rw [Arms.mids] at hq
    rcases List.mem_cons.mp hq with rfl | hq
    · rw [b.stackAfter_flatten, turn_arm (.inr hd)]
    · obtain ⟨q', hq', rfl⟩ := List.mem_map.mp hq
      rw [stackAfter_append, b.stackAfter_flatten, stackAfter_cons, turn_arm (.inr hd)]
      exact ih hq'

/-- Each directive of another conditional is left unless its place is in a dropped arm. -/
theorem survivors_directive
    (ho : classify o = .opener none) (he : classify e = .endif) {q : List Line × Line}
    (hq : q ∈ directives pre o arms e) :
    survivors q.1 [q.2] = [q.2] ↔ dead (stackAfter [] pre) = false := by
  have hturn : ∃ s', turn (stackAfter [] q.1) q.2 = (s', !dead (stackAfter [] pre)) := by
    unfold directives at hq
    rcases List.mem_cons.mp hq with rfl | hq
    · exact ⟨_, turn_opener ho _⟩
    · rcases List.mem_append.mp hq with hq | hq
      · obtain ⟨q', hq', rfl⟩ := List.mem_map.mp hq
        rw [stackAfter_append, stackAfter_cons, turn_opener ho]
        exact ⟨_, arms.turn_mid _ hq'⟩
      · obtain rfl : q = (pre ++ o :: arms.flatten, e) := by simpa using hq
        rw [stackAfter_append, stackAfter_cons, turn_opener ho, arms.stackAfter_other]
        exact ⟨_, turn_endif he _⟩
  obtain ⟨s', hs'⟩ := hturn
  unfold survivors
  rw [emitFrom_cons, hs']
  cases dead (stackAfter [] pre) <;> simp

theorem Occurs.classify {t : Body}
    (h : Occurs t pre encl o omp arms e) :
    Preprocess.classify o = .opener omp ∧ Preprocess.classify e = .endif := by
  induction h with
  | @here _ _ _ ho _ he _ => exact ⟨ho, he⟩
  | line _ ih => exact ih
  | after _ ih => exact ih
  | inside _ _ ih => exact ih

/-! ## Groups without an `#elif` -/

theorem emitFrom_first (ho : classify o = .opener (some drop)) (b : Body)
    (s : Stack) :
    emitFrom (stackAfter s [o]) b.flatten = if drop then [] else emitFrom s b.flatten := by
  rw [stackAfter_cons, turn_omp ho, stackAfter_nil]
  cases drop with
  | true => exact (b.emitFrom_eq_nil_iff _).mpr (Or.inl rfl)
  | false => exact b.emitFrom_congr rfl

theorem emitFrom_else {o d : Line} (ho : classify o = .opener (some drop)) (b : Body)
    (hd : classify d = .els) (c : Body) (s : Stack) :
    emitFrom (stackAfter s (o :: (b.flatten ++ [d]))) c.flatten =
      if drop then emitFrom s c.flatten else [] := by
  rw [stackAfter_cons, turn_omp ho, stackAfter_append, b.stackAfter_flatten, stackAfter_cons,
    turn_els_omp hd, stackAfter_nil]
  cases drop with
  | true => exact c.emitFrom_congr rfl
  | false => exact (c.emitFrom_eq_nil_iff _).mpr (Or.inl rfl)

/-! ## At most one arm -/

/-- Of every group on the two macros at most one arm has lines left, from a stack. -/
def OneArm (s : Stack) (t : Body) : Prop :=
  ∀ pre encl o drop arms e, Occurs t pre encl o (some drop) arms e →
    (liveArms (stackAfter s pre) o arms).length ≤ 1

/-- The arms with lines left, the group's entry being on the stack. -/
def liveFrom (s : Stack) (arms : Arms) : List (List Line × Body) :=
  arms.segments.filter fun q => !(emitFrom (stackAfter s q.1) q.2.flatten).isEmpty

theorem liveArms_eq (ho : classify o = .opener (some drop)) (s : Stack)
    (arms : Arms) : liveArms s o arms = liveFrom (⟨true, drop⟩ :: s) arms := by
  unfold liveArms liveFrom
  simp only [stackAfter_cons, turn_omp ho]

/-- One arm, by itself. -/
theorem isEmpty_emitFrom (b : Body) (s : Stack) :
    (!(emitFrom s b.flatten).isEmpty) = (!dead s && b.visible) := by
  have h := b.emitFrom_eq_nil_iff s
  rw [← List.isEmpty_iff] at h
  cases hd : dead s <;> cases hv : b.visible <;> simp_all

theorem liveFrom_fi (s : Stack) (b : Body) :
    (liveFrom s (.fi b)).length = (!dead s && b.visible).toNat := by
  unfold liveFrom
  rw [← List.countP_eq_length_filter, Arms.segments, List.countP_singleton]
  show (if (!(emitFrom s b.flatten).isEmpty) = true then 1 else 0) = _
  rw [isEmpty_emitFrom]
  cases dead s <;> cases b.visible <;> rfl

theorem liveFrom_els (drop : Bool) (s : Stack) (b : Body) {d : Line} (hd : classify d = .els)
    (c : Body) :
    (liveFrom (⟨true, drop⟩ :: s) (.els b d hd c)).length =
      (!dead (⟨true, drop⟩ :: s) && b.visible).toNat +
        (!dead (⟨true, !drop⟩ :: s) && c.visible).toNat := by
  unfold liveFrom Arms.segments
  simp only [List.filter_cons, List.filter_nil, stackAfter_nil, stackAfter_append,
    stackAfter_cons, b.stackAfter_flatten, turn_els_omp hd, isEmpty_emitFrom]
  cases (!dead (⟨true, drop⟩ :: s) && b.visible) <;>
    cases (!dead (⟨true, !drop⟩ :: s) && c.visible) <;> rfl

theorem liveFrom_elif (drop : Bool) (s : Stack) (b : Body) {d : Line} (hd : classify d = .elif)
    (rest : Arms) :
    (liveFrom (⟨true, drop⟩ :: s) (.elif b d hd rest)).length =
      (!dead (⟨true, drop⟩ :: s) && b.visible).toNat +
        (liveFrom (⟨true, true⟩ :: s) rest).length := by
  have hmap : ((rest.segments.map fun q => (b.flatten ++ d :: q.1, q.2)).filter fun q =>
        !(emitFrom (stackAfter (⟨true, drop⟩ :: s) q.1) q.2.flatten).isEmpty).length =
      (liveFrom (⟨true, true⟩ :: s) rest).length := by
    unfold liveFrom
    rw [List.filter_map, List.length_map]
    congr 2
    funext q
    show (!(emitFrom (stackAfter _ (b.flatten ++ d :: q.1)) q.2.flatten).isEmpty) = _
    rw [stackAfter_append, b.stackAfter_flatten, stackAfter_cons, turn_elif_omp hd]
  rw [← hmap]
  unfold liveFrom
  rw [Arms.segments, List.filter_cons]
  simp only [stackAfter_nil, isEmpty_emitFrom]
  cases (!dead (⟨true, drop⟩ :: s) && b.visible)
  · simp
  · simp [Nat.add_comm]

/-- After an `#elif` only the `#else` arm has lines left. -/
theorem liveFrom_dropped (arms : Arms) (s : Stack) :
    (liveFrom (⟨true, true⟩ :: s) arms).length = (!dead s && arms.shown true).toNat := by
  induction arms using Arms.segments.induct with
  | case1 b =>
    rw [liveFrom_fi]
    simp [Arms.shown]
  | case2 b d hd c =>
    rw [liveFrom_els]
    simp [Arms.shown]
  | case3 b d hd rest ih =>
    rw [liveFrom_elif, ih]
    simp [Arms.shown]

/-- **At one group**: two arms have lines left only after an `#elif`. -/
theorem liveFrom_le_one_iff (arms : Arms) (drop : Bool) (s : Stack) :
    (liveFrom (⟨true, drop⟩ :: s) arms).length ≤ 1 ↔
      dead s = true ∨ (drop = false → ¬ arms.Twice) := by
  cases arms with
  | fi b =>
    rw [liveFrom_fi]
    exact ⟨fun _ => Or.inr fun _ => id, fun _ => Bool.toNat_le _⟩
  | els b d hd c =>
    rw [liveFrom_els]
    simp only [dead_cons, Bool.true_and, Arms.Twice, not_false_eq_true, implies_true, or_true,
      iff_true]
    cases drop <;> cases dead s <;> cases b.visible <;> cases c.visible <;> decide
  | elif b d hd rest =>
    rw [liveFrom_elif, liveFrom_dropped]
    simp only [dead_cons, Bool.true_and, Arms.Twice]
    cases drop <;> cases dead s <;> cases b.visible <;> cases rest.shown true <;> simp

/-! ## All groups -/

theorem oneArm_nil (s : Stack) : OneArm s .nil := by
  intro pre encl o drop arms e h
  cases h

theorem oneArm_line {l : Line} (h : classify l = .plain) (rest : Body) (s : Stack) :
    OneArm s (.line l h rest) ↔ OneArm s rest := by
  constructor
  · intro hone pre encl o drop arms e hocc
    have hline : Occurs (.line l h rest) (l :: pre) (encl.map fun p => l :: p) o
        (some drop) arms e :=
      .line hocc
    have := hone _ _ o drop arms e hline
    rwa [stackAfter_cons, turn_plain h] at this
  · intro hone pre encl o drop arms e hocc
    cases hocc with
    | line hrest =>
      rw [stackAfter_cons, turn_plain h]
      exact hone _ _ o drop arms e hrest

theorem oneArm_group (ho : classify o = .opener omp) (arms : Arms)
    {e : Line} (he : classify e = .endif) (rest : Body) (s : Stack) :
    OneArm s (.group o omp ho arms e he rest) ↔
      (∀ drop, omp = some drop → (liveArms s o arms).length ≤ 1) ∧
        (∀ q ∈ arms.segments, OneArm (stackAfter s (o :: q.1)) q.2) ∧ OneArm s rest := by
  have hgroup : ∀ p, stackAfter s (o :: (arms.flatten ++ e :: p)) = stackAfter s p := by
    intro p
    have hend := (Body.group o omp ho arms e he .nil).stackAfter_flatten s
    have happ : o :: (arms.flatten ++ e :: p) =
        (Body.group o omp ho arms e he .nil).flatten ++ p := by simp [Body.flatten]
    rw [happ, stackAfter_append, hend]
  have hin : ∀ q p, stackAfter s (o :: (q ++ p)) = stackAfter (stackAfter s (o :: q)) p := by
    intro q p
    rw [← List.cons_append, stackAfter_append]
  constructor
  · intro hone
    refine ⟨?_, ?_, ?_⟩
    · rintro drop rfl
      exact hone [] [] o drop arms e .here
    · intro q hq pre encl o₁ drop arms₁ e₁ hocc
      have hin' : Occurs (.group o omp ho arms e he rest) (o :: (q.1 ++ pre))
          ((if omp.isSome then [o :: q.1] else []) ++ encl.map fun p => o :: (q.1 ++ p))
          o₁ (some drop) arms₁ e₁ := .inside hq hocc
      have := hone _ _ o₁ drop arms₁ e₁ hin'
      rwa [hin] at this
    · intro pre encl o₁ drop arms₁ e₁ hocc
      have hafter : Occurs (.group o omp ho arms e he rest) (o :: (arms.flatten ++ e :: pre))
          (encl.map fun p => o :: (arms.flatten ++ e :: p)) o₁ (some drop) arms₁ e₁ := .after hocc
      have := hone _ _ o₁ drop arms₁ e₁ hafter
      rwa [hgroup] at this
  · rintro ⟨hhere, hinside, hafter⟩ pre encl o₁ drop arms₁ e₁ hocc
    cases hocc with
    | here => exact hhere drop rfl
    | after hrest =>
      rw [hgroup]
      exact hafter _ _ o₁ drop arms₁ e₁ hrest
    | inside hq hocc =>
      rw [hin]
      exact hinside _ hq _ _ o₁ drop arms₁ e₁ hocc

mutual

/-- **All groups**: in a dropped arm, or when the lines are clean. -/
theorem Body.oneArm_iff (b : Body) (s : Stack) : OneArm s b ↔ dead s = true ∨ b.Clean := by
  cases b with
  | nil => exact ⟨fun _ => Or.inr (by rw [Body.Clean]; trivial), fun _ => oneArm_nil s⟩
  | line l h rest =>
    rw [oneArm_line h, rest.oneArm_iff s, Body.Clean]
  | group o omp ho arms e he rest =>
    rw [oneArm_group ho arms he, rest.oneArm_iff s]
    cases omp with
    | none =>
      have harms := arms.oneArm_iff s
      simp only [stackAfter_cons, turn_opener ho, harms, reduceCtorEq, false_implies, implies_true,
        true_and]
      rw [Body.Clean]
      tauto
    | some drop =>
      have harms := arms.oneArm_omp_iff drop s
      have hlive : (∀ x, some drop = some x → (liveArms s o arms).length ≤ 1) ↔
          dead s = true ∨ (drop = false → ¬ arms.Twice) := by
        rw [liveArms_eq ho, liveFrom_le_one_iff]
        simp
      simp only [stackAfter_cons, turn_omp ho, harms, hlive]
      rw [Body.Clean]
      tauto

theorem Arms.oneArm_iff (arms : Arms) (s : Stack) :
    (∀ q ∈ arms.segments, OneArm (stackAfter (⟨false, false⟩ :: s) q.1) q.2) ↔
      dead s = true ∨ arms.Clean := by
  cases arms with
  | fi b =>
    rw [Arms.segments, List.forall_mem_singleton, Arms.Clean, stackAfter_nil, b.oneArm_iff]
    rfl
  | els b d hd c =>
    rw [Arms.segments, List.forall_mem_cons, List.forall_mem_singleton, Arms.Clean, stackAfter_nil,
      stackAfter_append, b.stackAfter_flatten, stackAfter_cons, turn_arm (.inl hd), stackAfter_nil,
      b.oneArm_iff, c.oneArm_iff, dead_cons]
    tauto
  | elif b d hd rest =>
    have hrest := rest.oneArm_iff s
    rw [Arms.segments, List.forall_mem_cons, List.forall_mem_map, Arms.Clean, stackAfter_nil,
      b.oneArm_iff, dead_cons]
    simp only [stackAfter_append, b.stackAfter_flatten, stackAfter_cons, turn_arm (.inr hd), hrest,
      Bool.false_and, Bool.false_or]
    tauto

theorem Arms.oneArm_omp_iff (arms : Arms) (drop : Bool) (s : Stack) :
    (∀ q ∈ arms.segments, OneArm (stackAfter (⟨true, drop⟩ :: s) q.1) q.2) ↔
      dead s = true ∨ arms.KeptClean drop := by
  cases arms with
  | fi b =>
    rw [Arms.segments, List.forall_mem_singleton, Arms.KeptClean, stackAfter_nil, b.oneArm_iff,
      dead_cons, Bool.or_eq_true, Bool.true_and]
    tauto
  | els b d hd c =>
    rw [Arms.segments, List.forall_mem_cons, List.forall_mem_singleton, Arms.KeptClean,
      stackAfter_nil, stackAfter_append, b.stackAfter_flatten, stackAfter_cons, turn_els_omp hd,
      stackAfter_nil, b.oneArm_iff, c.oneArm_iff, dead_cons, dead_cons]
    cases drop <;> simp
  | elif b d hd rest =>
    have hrest := rest.oneArm_omp_iff true s
    rw [Arms.segments, List.forall_mem_cons, List.forall_mem_map, Arms.KeptClean, stackAfter_nil,
      b.oneArm_iff, dead_cons]
    simp only [stackAfter_append, b.stackAfter_flatten, stackAfter_cons, turn_elif_omp hd, hrest,
      Bool.true_and, Bool.or_eq_true]
    tauto

end

/-- `#ifndef _OPENMP`, `a`, `#elif X`, `b`, `#else`, `c`, `#endif` -/
def elseAfterElif : Body :=
  .group "#ifndef _OPENMP".toList (some false) (by decide)
    (.elif (.line "a".toList (by decide) .nil) "#elif X".toList (by decide)
      (.els (.line "b".toList (by decide) .nil) "#else".toList (by decide)
        (.line "c".toList (by decide) .nil)))
    "#endif".toList (by decide) .nil

end Preprocess
