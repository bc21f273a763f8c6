/-
# Balanced conditionals

Sources whose cpp conditionals are balanced, as trees: each group has its opener, its arms
with the `#elif` and `#else` between them, and its `#endif`.  The pass leaves a balanced
sequence of lines with the stack it had before it, and what it emits of the sequence
depends only on whether an arm around it is being dropped.
-/
import DaceFortran.Preprocess.StripOpenmp

namespace Preprocess

/-! ## Balanced sources -/

mutual

/-- Lines with balanced conditionals. -/
inductive Body where
  | nil
  | line (l : Line) (h : classify l = .plain) (rest : Body)
  | group (o : Line) (omp : Option Bool) (ho : classify o = .opener omp) (arms : Arms) (e : Line)
      (he : classify e = .endif) (rest : Body)

/-- The arms of a group: an `#else`, if there is one, comes last. -/
inductive Arms where
  | fi (b : Body)
  | els (b : Body) (d : Line) (hd : classify d = .els) (c : Body)
  | elif (b : Body) (d : Line) (hd : classify d = .elif) (rest : Arms)

end

mutual

/-- The lines of a source. -/
def Body.flatten : Body → List Line
  | .nil => []
  | .line l _ rest => l :: rest.flatten
  | .group o _ _ arms e _ rest => o :: (arms.flatten ++ e :: rest.flatten)

@[inherit_doc Body.flatten]
def Arms.flatten : Arms → List Line
  | .fi b => b.flatten
  | .els b d _ c => b.flatten ++ d :: c.flatten
  | .elif b d _ rest => b.flatten ++ d :: rest.flatten

end

/-- The arms, each with the lines of the group before it. -/
def Arms.segments : Arms → List (List Line × Body)
  | .fi b => [([], b)]
  | .els b d _ c => [([], b), (b.flatten ++ [d], c)]
  | .elif b d _ rest => ([], b) :: rest.segments.map fun q => (b.flatten ++ d :: q.1, q.2)

/-- The `#elif` and `#else` lines, each with the lines of the group before it. -/
def Arms.mids : Arms → List (List Line × Line)
  | .fi _ => []
  | .els b d _ _ => [(b.flatten, d)]
  | .elif b d _ rest => (b.flatten, d) :: rest.mids.map fun q => (b.flatten ++ d :: q.1, q.2)

/-! ## Turns on directives -/

variable {l : Line} {drop : Bool}

theorem turn_plain (h : classify l = .plain) (s : Stack) :
    turn s l = (s, keep s l) := by
  unfold turn
  rw [h]

variable {o : Line} {d : Line} {e : Line}

theorem turn_omp (h : classify o = .opener (some drop)) (s : Stack) :
    turn s o = (⟨true, drop⟩ :: s, false) := by
  unfold turn
  rw [h]

theorem keep_of_classify (h : classify l ≠ .plain) (s : Stack) :
    keep s l = !dead s := by
  unfold keep
  rw [inert_of_classify h]
  simp

theorem turn_opener (h : classify o = .opener none) (s : Stack) :
    turn s o = (⟨false, false⟩ :: s, !dead s) := by
  have hk := keep_of_classify (l := o) (by rw [h]; simp) (⟨false, false⟩ :: s)
  unfold turn
  rw [h]
  simp only [hk, dead_cons, Bool.false_and, Bool.false_or]

theorem turn_els_omp (h : classify d = .els) (drop : Bool) (s : Stack) :
    turn (⟨true, drop⟩ :: s) d = (⟨true, !drop⟩ :: s, false) := by
  unfold turn
  rw [h]

/-- An `#else` or an `#elif` of a group that is kept. -/
theorem turn_arm (h : classify d = .els ∨ classify d = .elif) (s : Stack) :
    turn (⟨false, false⟩ :: s) d = (⟨false, false⟩ :: s, !dead s) := by
  have hk := keep_of_classify (l := d) (by rcases h with h | h <;> simp [h]) (⟨false, false⟩ :: s)
  unfold turn
  rcases h with h | h
  · rw [h]
    simp only [hk, dead_cons, Bool.false_and, Bool.false_or]
  · rw [h]
    simp only [hk, dead_cons, Bool.false_and, Bool.false_or]

theorem turn_elif_omp (h : classify d = .elif) (drop : Bool) (s : Stack) :
    turn (⟨true, drop⟩ :: s) d = (⟨true, true⟩ :: s, false) := by
  unfold turn
  rw [h]

theorem turn_endif_omp (h : classify e = .endif) (drop : Bool) (s : Stack) :
    turn (⟨true, drop⟩ :: s) e = (s, false) := by
  unfold turn
  rw [h]

theorem turn_endif (h : classify e = .endif) (s : Stack) :
    turn (⟨false, false⟩ :: s) e = (s, !dead s) := by
  have hk := keep_of_classify (l := e) (by rw [h]; simp) s
  unfold turn
  rw [h]
  simp only [hk]

/-! ## Stacks over balanced lines -/

mutual

/-- **A balanced sequence** leaves the stack as it was. -/
theorem Body.stackAfter_flatten (b : Body) (s : Stack) : stackAfter s b.flatten = s := by
  cases b with
  | nil => rfl
  | line l h rest =>
    rw [Body.flatten, stackAfter_cons, turn_plain h]
    exact rest.stackAfter_flatten s
  | group o omp ho arms e he rest =>
    rw [Body.flatten, stackAfter_cons, stackAfter_append, stackAfter_cons]
    cases omp with
    | none =>
      rw [turn_opener ho]
      show stackAfter (turn (stackAfter (⟨false, false⟩ :: s) _) e).1 _ = s
      rw [arms.stackAfter_other s, turn_endif he]
      exact rest.stackAfter_flatten s
    | some drop =>
      rw [turn_omp ho]
      obtain ⟨drop', h⟩ := arms.stackAfter_omp drop s
      show stackAfter (turn (stackAfter (⟨true, drop⟩ :: s) _) e).1 _ = s
      rw [h, turn_endif_omp he]
      exact rest.stackAfter_flatten s

theorem Arms.stackAfter_other (arms : Arms) (s : Stack) :
    stackAfter (⟨false, false⟩ :: s) arms.flatten = ⟨false, false⟩ :: s := by
  cases arms with
  | fi b => exact b.stackAfter_flatten _
  | els b d hd c =>
    rw [Arms.flatten, stackAfter_append, stackAfter_cons, b.stackAfter_flatten, turn_arm (.inl hd)]
    exact c.stackAfter_flatten _
  | elif b d hd rest =>
    rw [Arms.flatten, stackAfter_append, stackAfter_cons, b.stackAfter_flatten, turn_arm (.inr hd)]
    exact rest.stackAfter_other s

theorem Arms.stackAfter_omp (arms : Arms) (drop : Bool) (s : Stack) :
    ∃ drop', stackAfter (⟨true, drop⟩ :: s) arms.flatten = ⟨true, drop'⟩ :: s := by
  cases arms with
  | fi b => exact ⟨drop, b.stackAfter_flatten _⟩
  | els b d hd c =>
    refine ⟨!drop, ?_⟩
    rw [Arms.flatten, stackAfter_append, stackAfter_cons, b.stackAfter_flatten, turn_els_omp hd]
    exact c.stackAfter_flatten _
  | elif b d hd rest =>
    rw [Arms.flatten, stackAfter_append, stackAfter_cons, b.stackAfter_flatten, turn_elif_omp hd]
    exact rest.stackAfter_omp true s

end

/-! ## What is emitted of balanced lines -/

theorem emitFrom_line (h : classify l = .plain) (rest : Body) (s : Stack) :
    emitFrom s (Body.line l h rest).flatten =
      (if keep s l then [l] else []) ++ emitFrom s rest.flatten := by
  rw [Body.flatten, emitFrom_cons, turn_plain h]

theorem emitFrom_group_omp (ho : classify o = .opener (some drop))
    (arms : Arms) (he : classify e = .endif) (rest : Body) (s : Stack) :
    emitFrom s (Body.group o _ ho arms e he rest).flatten =
      emitFrom (⟨true, drop⟩ :: s) arms.flatten ++ emitFrom s rest.flatten := by
  obtain ⟨drop', h⟩ := arms.stackAfter_omp drop s
  rw [Body.flatten, emitFrom_cons, emitFrom_append, emitFrom_cons, turn_omp ho]
  simp only [h, turn_endif_omp he]
  rfl

theorem emitFrom_group (ho : classify o = .opener none)
    (arms : Arms) (he : classify e = .endif) (rest : Body) (s : Stack) :
    emitFrom s (Body.group o _ ho arms e he rest).flatten =
      (if dead s then [] else [o]) ++ (emitFrom (⟨false, false⟩ :: s) arms.flatten ++
        ((if dead s then [] else [e]) ++ emitFrom s rest.flatten)) := by
  rw [Body.flatten, emitFrom_cons, emitFrom_append, emitFrom_cons, turn_opener ho]
  simp only [arms.stackAfter_other s, turn_endif he]
  cases dead s <;> rfl

variable (b : Body)

theorem emitFrom_els_omp (hd : classify d = .els) (c : Body) (drop : Bool)
    (s : Stack) :
    emitFrom (⟨true, drop⟩ :: s) (Arms.els b d hd c).flatten =
      emitFrom (⟨true, drop⟩ :: s) b.flatten ++ emitFrom (⟨true, !drop⟩ :: s) c.flatten := by
  rw [Arms.flatten, emitFrom_append, emitFrom_cons, b.stackAfter_flatten, turn_els_omp hd]
  rfl

theorem emitFrom_els (hd : classify d = .els) (c : Body) (s : Stack) :
    emitFrom (⟨false, false⟩ :: s) (Arms.els b d hd c).flatten =
      emitFrom (⟨false, false⟩ :: s) b.flatten ++
        ((if dead s then [] else [d]) ++ emitFrom (⟨false, false⟩ :: s) c.flatten) := by
  rw [Arms.flatten, emitFrom_append, emitFrom_cons, b.stackAfter_flatten, turn_arm (.inl hd)]
  cases dead s <;> rfl

theorem emitFrom_elif_omp (hd : classify d = .elif) (rest : Arms)
    (drop : Bool) (s : Stack) :
    emitFrom (⟨true, drop⟩ :: s) (Arms.elif b d hd rest).flatten =
      emitFrom (⟨true, drop⟩ :: s) b.flatten ++ emitFrom (⟨true, true⟩ :: s) rest.flatten := by
  rw [Arms.flatten, emitFrom_append, emitFrom_cons, b.stackAfter_flatten, turn_elif_omp hd]
  rfl

theorem emitFrom_elif (hd : classify d = .elif) (rest : Arms) (s : Stack) :
    emitFrom (⟨false, false⟩ :: s) (Arms.elif b d hd rest).flatten =
      emitFrom (⟨false, false⟩ :: s) b.flatten ++
        ((if dead s then [] else [d]) ++ emitFrom (⟨false, false⟩ :: s) rest.flatten) := by
  rw [Arms.flatten, emitFrom_append, emitFrom_cons, b.stackAfter_flatten, turn_arm (.inr hd)]
  cases dead s <;> rfl

mutual

/-- What is emitted depends only on whether an arm around the lines is dropped. -/
theorem Body.emitFrom_congr (b : Body) {s t : Stack} (h : dead s = dead t) :
    emitFrom s b.flatten = emitFrom t b.flatten := by
  cases b with
  | nil => rfl
  | line l hl rest =>
    rw [emitFrom_line hl, emitFrom_line hl, rest.emitFrom_congr h]
    unfold keep
    rw [h]
  | group o omp ho arms e he rest =>
    cases omp with
    | none =>
      rw [emitFrom_group ho arms he, emitFrom_group ho arms he, h, rest.emitFrom_congr h,
        arms.emitFrom_congr h]
    | some drop =>
      rw [emitFrom_group_omp ho arms he, emitFrom_group_omp ho arms he, rest.emitFrom_congr h,
        arms.emitFrom_congr_omp drop h]

theorem Arms.emitFrom_congr (arms : Arms) {s t : Stack} (h : dead s = dead t) :
    emitFrom (⟨false, false⟩ :: s) arms.flatten = emitFrom (⟨false, false⟩ :: t) arms.flatten := by
  have hcons : dead (⟨false, false⟩ :: s) = dead (⟨false, false⟩ :: t) := by
    rw [dead_cons, dead_cons, h]
  cases arms with
  | fi b => exact b.emitFrom_congr hcons
  | els b d hd c =>
    rw [emitFrom_els, emitFrom_els, h, b.emitFrom_congr hcons, c.emitFrom_congr hcons]
  | elif b d hd rest =>
    rw [emitFrom_elif, emitFrom_elif, h, b.emitFrom_congr hcons, rest.emitFrom_congr h]

theorem Arms.emitFrom_congr_omp (arms : Arms) (drop : Bool) {s t : Stack} (h : dead s = dead t) :
    emitFrom (⟨true, drop⟩ :: s) arms.flatten = emitFrom (⟨true, drop⟩ :: t) arms.flatten := by
  have hcons : ∀ x, dead (⟨true, x⟩ :: s) = dead (⟨true, x⟩ :: t) := by
    intro x
    rw [dead_cons, dead_cons, h]
  cases arms with
  | fi b => exact b.emitFrom_congr (hcons drop)
  | els b d hd c =>
    rw [emitFrom_els_omp, emitFrom_els_omp, b.emitFrom_congr (hcons drop),
      c.emitFrom_congr (hcons (!drop))]
  | elif b d hd rest =>
    rw [emitFrom_elif_omp, emitFrom_elif_omp, b.emitFrom_congr (hcons drop),
      rest.emitFrom_congr_omp true h]

end

/-! ## Lines to be seen -/

mutual

/-- Some line is left when the groups on the two macros are resolved. -/
def Body.visible : Body → Bool
  | .nil => false
  | .line l _ rest => !inert l || rest.visible
  | .group _ none _ _ _ _ _ => true
  | .group _ (some drop) _ arms _ _ rest => arms.shown drop || rest.visible

/-- Some line is left of the arms of a group whose first arm is dropped or not. -/
def Arms.shown : Arms → Bool → Bool
  | .fi b, drop => !drop && b.visible
  | .els b _ _ c, drop => (!drop && b.visible) || (drop && c.visible)
  | .elif b _ _ rest, drop => (!drop && b.visible) || rest.shown true

end

mutual

/-- **Nothing is emitted** of lines in a dropped arm and of lines that leave nothing. -/
theorem Body.emitFrom_eq_nil_iff (b : Body) (s : Stack) :
    emitFrom s b.flatten = [] ↔ dead s = true ∨ b.visible = false := by
  cases b with
  | nil => exact ⟨fun _ => Or.inr rfl, fun _ => rfl⟩
  | line l h rest =>
    rw [emitFrom_line h, List.append_eq_nil_iff, rest.emitFrom_eq_nil_iff s, Body.visible]
    unfold keep
    cases dead s <;> cases inert l <;> simp
  | group o omp ho arms e he rest =>
    cases omp with
    | none =>
      rw [emitFrom_group ho arms he, Body.visible]
      cases hs : dead s with
      | false => simp
      | true =>
        have hrest := (rest.emitFrom_eq_nil_iff s).mpr (Or.inl hs)
        have harms := arms.emitFrom_eq_nil hs
        simp [hrest, harms]
    | some drop =>
      rw [emitFrom_group_omp ho arms he, List.append_eq_nil_iff, rest.emitFrom_eq_nil_iff s,
        arms.emitFrom_omp_eq_nil_iff drop s, Body.visible]
      cases dead s <;> simp

theorem Arms.emitFrom_eq_nil (arms : Arms) {s : Stack} (hs : dead s = true) :
    emitFrom (⟨false, false⟩ :: s) arms.flatten = [] := by
  have hcons : dead (⟨false, false⟩ :: s) = true := by rw [dead_cons, hs]; rfl
  cases arms with
  | fi b => exact (b.emitFrom_eq_nil_iff _).mpr (Or.inl hcons)
  | els b d hd c =>
    have hb := (b.emitFrom_eq_nil_iff _).mpr (Or.inl hcons)
    have hc := (c.emitFrom_eq_nil_iff _).mpr (Or.inl hcons)
    rw [emitFrom_els, hb, hc, hs]
    rfl
  | elif b d hd rest =>
    have hb := (b.emitFrom_eq_nil_iff _).mpr (Or.inl hcons)
    rw [emitFrom_elif, hb, rest.emitFrom_eq_nil hs, hs]
    rfl

theorem Arms.emitFrom_omp_eq_nil_iff (arms : Arms) (drop : Bool) (s : Stack) :
    emitFrom (⟨true, drop⟩ :: s) arms.flatten = [] ↔ dead s = true ∨ arms.shown drop = false := by
  cases arms with
  | fi b =>
    show emitFrom _ b.flatten = [] ↔ _
    rw [b.emitFrom_eq_nil_iff, dead_cons, Arms.shown]
    cases dead s <;> cases drop <;> simp
  | els b d hd c =>
    rw [emitFrom_els_omp, List.append_eq_nil_iff, b.emitFrom_eq_nil_iff, c.emitFrom_eq_nil_iff,
      dead_cons, dead_cons, Arms.shown]
    cases dead s <;> cases drop <;> simp
  | elif b d hd rest =>
    rw [emitFrom_elif_omp, List.append_eq_nil_iff, b.emitFrom_eq_nil_iff,
      rest.emitFrom_omp_eq_nil_iff true s, dead_cons, Arms.shown]
    cases dead s <;> cases drop <;> simp

end

/-! ## The output is balanced -/

/-- One sequence after another. -/
def Body.append : Body → Body → Body
  | .nil, b => b
  | .line l h rest, b => .line l h (rest.append b)
  | .group o omp ho arms e he rest, b => .group o omp ho arms e he (rest.append b)

theorem Body.flatten_append (a b : Body) : (a.append b).flatten = a.flatten ++ b.flatten := by
  cases a with
  | nil => rfl
  | line l h rest =>
    rw [Body.append, Body.flatten, Body.flatten, rest.flatten_append b]
    rfl
  | group o omp ho arms e he rest =>
    rw [Body.append, Body.flatten, Body.flatten, rest.flatten_append b]
    simp

mutual

/-- **The lines emitted** of a balanced sequence are balanced. -/
theorem Body.exists_emitted (b : Body) (s : Stack) :
    ∃ out : Body, emitFrom s b.flatten = out.flatten := by
  cases b with
  | nil => exact ⟨.nil, rfl⟩
  | line l h rest =>
    obtain ⟨out, hout⟩ := rest.exists_emitted s
    rw [emitFrom_line h, hout]
    split
    · exact ⟨.line l h out, rfl⟩
    · exact ⟨out, rfl⟩
  | group o omp ho arms e he rest =>
    obtain ⟨out, hout⟩ := rest.exists_emitted s
    cases omp with
    | none =>
      rw [emitFrom_group ho arms he, hout]
      cases hs : dead s with
      | true =>
        rw [arms.emitFrom_eq_nil hs]
        exact ⟨out, rfl⟩
      | false =>
        obtain ⟨arms', harms⟩ := arms.exists_emitted hs
        rw [harms]
        exact ⟨.group o _ ho arms' e he out, by simp [Body.flatten]⟩
    | some drop =>
      obtain ⟨out', hout'⟩ := arms.exists_emitted_omp drop s
      rw [emitFrom_group_omp ho arms he, hout, hout', ← Body.flatten_append]
      exact ⟨out'.append out, rfl⟩

theorem Arms.exists_emitted (arms : Arms) {s : Stack} (hs : dead s = false) :
    ∃ out : Arms, emitFrom (⟨false, false⟩ :: s) arms.flatten = out.flatten := by
  cases arms with
  | fi b =>
    obtain ⟨out, hout⟩ := b.exists_emitted (⟨false, false⟩ :: s)
    exact ⟨.fi out, hout⟩
  | els b d hd c =>
    obtain ⟨out, hout⟩ := b.exists_emitted (⟨false, false⟩ :: s)
    obtain ⟨out', hout'⟩ := c.exists_emitted (⟨false, false⟩ :: s)
    rw [emitFrom_els, hout, hout', hs]
    exact ⟨.els out d hd out', rfl⟩
  | elif b d hd rest =>
    obtain ⟨out, hout⟩ := b.exists_emitted (⟨false, false⟩ :: s)
    obtain ⟨out', hout'⟩ := rest.exists_emitted hs
    rw [emitFrom_elif, hout, hout', hs]
    exact ⟨.elif out d hd out', rfl⟩

theorem Arms.exists_emitted_omp (arms : Arms) (drop : Bool) (s : Stack) :
    ∃ out : Body, emitFrom (⟨true, drop⟩ :: s) arms.flatten = out.flatten := by
  cases arms with
  | fi b => exact b.exists_emitted _
  | els b d hd c =>
    obtain ⟨out, hout⟩ := b.exists_emitted (⟨true, drop⟩ :: s)
    obtain ⟨out', hout'⟩ := c.exists_emitted (⟨true, !drop⟩ :: s)
    rw [emitFrom_els_omp, hout, hout', ← Body.flatten_append]
    exact ⟨out.append out', rfl⟩
  | elif b d hd rest =>
    obtain ⟨out, hout⟩ := b.exists_emitted (⟨true, drop⟩ :: s)
    obtain ⟨out', hout'⟩ := rest.exists_emitted_omp true s
    rw [emitFrom_elif_omp, hout, hout', ← Body.flatten_append]
    exact ⟨out.append out', rfl⟩

end

end Preprocess
