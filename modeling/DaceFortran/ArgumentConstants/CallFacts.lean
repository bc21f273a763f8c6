/-
# What the calls record

The calls the pass looks at (`Looked`) are those it can follow to a procedure
that is no entry point.  In the tables of a whole program every one of them has
its record (`scanCalls_recorded`), and there is no other record
(`scanCalls_origin`).
-/
import DaceFortran.ArgumentConstants.MakeArgumentConstants
import Mathlib.Data.List.Nodup

open Procedures ConstEval Fallible List

namespace ArgumentConstants

variable {P : Processor} {tolerate : Bool} {code : Code ConstEval.Expr} {keepers : List Spec}
variable {t t' : Table P}

/-! ## Valid programs -/

/-- Arguments as Fortran has them: those with a keyword come last, each keyword once. -/
inductive ValidArgs : List Actual → Prop
  | keywords {args : List Actual} (hk : ∀ a ∈ args, a.1 ≠ none)
      (hn : (args.map Prod.fst).Nodup) : ValidArgs args
  | positional {e : Procedures.Expr ConstEval.Expr} {args : List Actual} (h : ValidArgs args) :
      ValidArgs ((none, e) :: args)

/-- A valid program: no two procedures have one name, no two dummies are one entity, none is a
module variable, and the arguments are in order. -/
structure ValidCode (code : Code ConstEval.Expr) : Prop where
  specs : (code.procedures.map Procedure.spec).Nodup
  dummies : ∀ q ∈ code.procedures, ∀ q' ∈ code.procedures, ∀ d ∈ q.dummies, ∀ d' ∈ q'.dummies,
    ∀ s, d.spec = some s → d'.spec = some s → q = q' ∧ d = d'
  module : ∀ q ∈ code.procedures, ∀ d ∈ q.dummies, ∀ s, d.spec = some s → s ∉ code.moduleVariables
  args : ∀ c ∈ code.calls, ValidArgs c.args.toList

variable {args : List Actual} {q : Procedure ConstEval.Expr}

/-- A keyword that occurs once is found from either end. -/
theorem find_reverse (hn : (args.map Prod.fst).Nodup) (k : Option String) :
    args.reverse.find? (fun a => a.1 = k) = args.find? (fun a => a.1 = k) := by
  induction args with
  | nil => rfl
  | cons a args ih =>
    rw [map_cons, nodup_cons] at hn
    rw [reverse_cons, List.find?_append, ih hn.2]
    by_cases ha : a.1 = k
    · have hnone : args.find? (fun a => a.1 = k) = none := by
        rw [List.find?_eq_none]
        intro b hb hbk
        apply hn.1
        rw [ha, ← (by simpa using hbk : b.1 = k)]
        exact mem_map.mpr ⟨b, hb, rfl⟩
      rw [hnone, List.find?_cons_of_pos (by simpa using ha),
        List.find?_cons_of_pos (by simpa using ha)]
      rfl
    · rw [List.find?_cons_of_neg (by simpa using ha), List.find?_cons_of_neg (by simpa using ha)]
      simp

/-- The loop takes the arguments as Fortran associates them. -/
theorem loopActual_eq {kw : String → Option (Procedures.Expr ConstEval.Expr)} :
    ∀ {args : List Actual}, ValidArgs args →
      (∀ name, kw name = (args.find? fun a => a.1 = some name).map Prod.snd) →
      ∀ j name, loopActual kw args j name = actualOf args j name := by
  intro args hargs
  induction hargs with
  | @keywords args hk _ =>
    intro hkw j name
    rcases args with _ | ⟨⟨k, e⟩, args⟩
    · rfl
    · rcases k with _ | k
      · exact absurd rfl (hk _ (mem_cons_self ..))
      · have hloop : loopActual kw ((some k, e) :: args) j name = kw name := by
          cases j <;> rfl
        rw [hloop, hkw]
        unfold actualOf
        split
        case h_1 e' hj => exact absurd rfl (hk _ (mem_of_getElem? hj))
        case h_2 => rfl
  | @positional e args h ih =>
    intro hkw j name
    have hkw' : ∀ name, kw name = (args.find? fun a => a.1 = some name).map Prod.snd := by
      intro name
      rw [hkw, List.find?_cons_of_neg (by simp)]
    rcases j with _ | j
    · rfl
    · show loopActual kw args j name = _
      rw [ih hkw' j name]
      unfold actualOf
      rw [List.getElem?_cons_succ, List.find?_cons_of_neg (by simp)]

/-- Every keyword of valid arguments is found by `kwargs`. -/
theorem kwargs_eq (h : ValidArgs args) (name : String) :
    kwargs args name = (args.find? fun a => a.1 = some name).map Prod.snd := by
  unfold kwargs
  induction h with
  | keywords _ hn => rw [find_reverse hn]
  | @positional e args h ih =>
    have htail : List.find? (fun a : Actual => a.1 = some name) [(none, e)] = none :=
      List.find?_cons_of_neg (by simp)
    rw [reverse_cons, List.find?_append, htail, Option.or_none, ih,
      List.find?_cons_of_neg (by simp)]

/-! ## Calls that are looked at -/

/-- The pass follows the call to a procedure that is no entry point. -/
structure Looked (code : Code ConstEval.Expr) (keepers : List Spec) (c : Call ConstEval.Expr)
    (q : Procedure ConstEval.Expr) : Prop where
  mem : c ∈ code.calls
  walked : c.walked = true
  names : c.fn.procedure? = some q.spec
  procedure : q ∈ code.procedures
  keeper : q.spec ∉ keepers

/-- The table has every dummy of the procedure. -/
def AllResolved (q : Procedure ConstEval.Expr) : Prop :=
  (Procedure.resolved q).length = q.dummies.length

/-- The dummies of such a procedure keep their numbers. -/
theorem AllResolved.getElem? (h : AllResolved q) {j : ℕ} {d : Dummy}
    {s : Spec} : (Procedure.resolved q)[j]? = some (d, s) ↔
      q.dummies[j]? = some d ∧ d.spec = some s := by
  unfold AllResolved Procedure.resolved at h
  unfold Procedure.resolved
  revert h j
  generalize q.dummies = l
  induction l with
  | nil => simp
  | cons d₀ l ih =>
    intro h j
    rcases hs : d₀.spec with _ | s₀
    · have hnone : List.filterMap (fun d : Dummy => d.spec.map (d, ·)) (d₀ :: l) =
          List.filterMap (fun d : Dummy => d.spec.map (d, ·)) l :=
        filterMap_cons_none (by rw [hs]; rfl)
      rw [hnone] at h
      have hle := length_filterMap_le (fun d : Dummy => d.spec.map (d, ·)) l
      rw [h, length_cons] at hle
      omega
    · have hcons : List.filterMap (fun d : Dummy => d.spec.map (d, ·)) (d₀ :: l) =
          (d₀, s₀) :: List.filterMap (fun d : Dummy => d.spec.map (d, ·)) l :=
        filterMap_cons_some (by rw [hs]; rfl)
      rw [hcons] at h ⊢
      rcases j with _ | j
      · simp only [List.getElem?_cons_zero, Option.some.injEq, Prod.mk.injEq]
        constructor
        · rintro ⟨rfl, rfl⟩
          exact ⟨rfl, hs⟩
        · rintro ⟨rfl, h'⟩
          rw [hs] at h'
          exact ⟨rfl, Option.some.inj h'⟩
      · rw [List.getElem?_cons_succ, List.getElem?_cons_succ]
        exact ih (Nat.succ.inj h)

variable {c : Call ConstEval.Expr}

/-- What one round does. -/
theorem scanFound_cases {fn : Callee ConstEval.Expr} (hfn : fn = c.fn)
    (h : (match fn.procedure?.bind fun s => code.procedures.find? fun q => q.spec = s with
      | none => if c.args.toList = [] then .ok t else .error .assertionError
      | some q =>
        if q.spec ∈ keepers then .ok t
        else if q.dummies.length < c.args.toList.length then .error .assertionError
        else if (Procedure.resolved q).length ≠ q.dummies.length then
          .ok ((Procedure.resolved q).foldl (fun t ds => t.addUndecidable ds.2) t)
        else scanDummies P tolerate code (kwargs c.args.toList) (Procedure.resolved q)
          c.args.toList t) = (.ok t' : Except Raised (Table P))) :
    t' = t ∨ ∃ q ∈ code.procedures, c.fn.procedure? = some q.spec ∧ q.spec ∉ keepers ∧
      (¬AllResolved q ∧
          t' = (Procedure.resolved q).foldl (fun t ds => t.addUndecidable ds.2) t ∨
        AllResolved q ∧ scanDummies P tolerate code (kwargs c.args.toList) (Procedure.resolved q)
          c.args.toList t = .ok t') := by
  subst hfn
  rcases hq : (c.fn.procedure?.bind fun s => code.procedures.find? fun q => q.spec = s) with _ | q
  · rw [hq] at h
    simp only at h
    split_ifs at h
    exact Or.inl (Except.ok.inj h).symm
  · rw [hq] at h
    simp only at h
    obtain ⟨s, hs, hfind⟩ := Option.bind_eq_some_iff.mp hq
    have hspec : q.spec = s := by simpa using List.find?_some hfind
    split_ifs at h with hk hlen hres
    · exact Or.inl (Except.ok.inj h).symm
    · refine Or.inr ⟨q, mem_of_find?_eq_some hfind, by rw [hs, hspec], hk, Or.inl ⟨hres, ?_⟩⟩
      exact (Except.ok.inj h).symm
    · refine Or.inr ⟨q, mem_of_find?_eq_some hfind, by rw [hs, hspec], hk, Or.inr ⟨?_, h⟩⟩
      exact not_not.mp hres

theorem scanCall_cases (h : scanCall P tolerate code keepers t c = .ok t') :
    t' = t ∨ ∃ q ∈ code.procedures, c.fn.procedure? = some q.spec ∧ q.spec ∉ keepers ∧
      (¬AllResolved q ∧
          t' = (Procedure.resolved q).foldl (fun t ds => t.addUndecidable ds.2) t ∨
        AllResolved q ∧ scanDummies P tolerate code (kwargs c.args.toList) (Procedure.resolved q)
          c.args.toList t = .ok t') := by
  unfold scanCall at h
  split at h
  · exact Or.inl (Except.ok.inj h).symm
  · exact Or.inl (Except.ok.inj h).symm
  · split_ifs at h
    exact Or.inl (Except.ok.inj h).symm
  · exact Or.inl (Except.ok.inj h).symm
  · exact Or.inl (Except.ok.inj h).symm
  · exact scanFound_cases rfl h

/-- **A call that is looked at** is followed to its procedure. -/
theorem scanCall_looked (hv : ValidCode code)
    (hl : Looked code keepers c q)
    (h : scanCall P tolerate code keepers t c = .ok t') :
    ¬AllResolved q ∧ t' = (Procedure.resolved q).foldl (fun t ds => t.addUndecidable ds.2) t ∨
      AllResolved q ∧ scanDummies P tolerate code (kwargs c.args.toList) (Procedure.resolved q)
        c.args.toList t = .ok t' := by
  have hfind : code.procedures.find? (fun q' => q'.spec = q.spec) = some q := by
    rcases hf : code.procedures.find? (fun q' => q'.spec = q.spec) with _ | q'
    · have := List.find?_eq_none.mp hf q hl.procedure
      simp at this
    · have hs : q'.spec = q.spec := by simpa using List.find?_some hf
      obtain rfl := inj_on_of_nodup_map hv.specs (mem_of_find?_eq_some hf) hl.procedure hs
      exact hf
  have hnames := hl.names
  unfold scanCall at h
  split at h
  case h_1 op hfn => rw [hfn] at hnames; cases hnames
  case h_2 base binding hfn => rw [hfn] at hnames; cases hnames
  case h_3 x hfn => rw [hfn] at hnames; cases hnames
  case h_4 x hfn => rw [hfn] at hnames; cases hnames
  case h_5 x y hfn => rw [hfn] at hnames; cases hnames
  case h_6 =>
    rw [hnames, Option.bind_some, hfind] at h
    simp only at h
    split_ifs at h with hk hlen hres
    · exact absurd hk hl.keeper
    · exact Or.inl ⟨hres, (Except.ok.inj h).symm⟩
    · exact Or.inr ⟨not_not.mp hres, h⟩

/-! ## All calls -/

variable (l : List (Dummy × Spec))

theorem le_foldl_undecidable :
    t.Le (l.foldl (fun t ds => t.addUndecidable ds.2) t) := by
  induction l generalizing t with
  | nil => exact Table.Le.refl t
  | cons ds l ih => exact (le_addUndecidable t ds.2).trans ih

theorem foldl_undecidable {l : List (Dummy × Spec)} {d : Dummy} {s : Spec} (h : (d, s) ∈ l) :
    (l.foldl (fun t ds => t.addUndecidable ds.2) t).undecidable s = true := by
  induction l generalizing t with
  | nil => cases h
  | cons ds l ih =>
    rcases mem_cons.mp h with rfl | h
    · exact (le_foldl_undecidable l).undecidable s (undecidable_addUndecidable t s)
    · exact ih h

theorem foldl_possible (s : Spec) :
    (l.foldl (fun t ds => t.addUndecidable ds.2) t).possible s = t.possible s := by
  induction l generalizing t with
  | nil => rfl
  | cons ds l ih => exact ih

theorem foldl_presence (s : Spec) :
    (l.foldl (fun t ds => t.addUndecidable ds.2) t).presence s = t.presence s := by
  induction l generalizing t with
  | nil => rfl
  | cons ds l ih => exact ih

theorem le_scanCall (h : scanCall P tolerate code keepers t c = .ok t') :
    t.Le t' := by
  rcases scanCall_cases h with rfl | ⟨q, -, -, -, ⟨-, rfl⟩ | ⟨-, h⟩⟩
  · exact Table.Le.refl _
  · exact le_foldl_undecidable _
  · exact (scanDummies_recorded h).1

/-- The record of a call for its procedure. -/
def CallRecorded (P : Processor) (tolerate : Bool) (code : Code ConstEval.Expr) (t : Table P)
    (c : Call ConstEval.Expr) (q : Procedure ConstEval.Expr) : Prop :=
  ∀ i d s, q.dummies[i]? = some d → d.spec = some s →
    t.undecidable s = true ∧ ¬AllResolved q ∨
      Recorded P tolerate code t d s (actualOf c.args.toList i d.name)

/-- **Every call that is looked at has its record.** -/
theorem scanCalls_recorded (hv : ValidCode code)
    (h : scanCalls P tolerate code keepers = .ok t)
    (hl : Looked code keepers c q) :
    CallRecorded P tolerate code t c q := by
  have hall := foldlM_forall
    (R := fun c t => ∀ q, Looked code keepers c q → CallRecorded P tolerate code t c q)
    (by
      intro t₀ c t₁ hc q hl i d s hi hs
      rcases scanCall_looked hv hl hc with ⟨hres, rfl⟩ | ⟨hres, hscan⟩
      · left
        refine ⟨foldl_undecidable (d := d) (mem_filterMap.mpr ⟨d, mem_of_getElem? hi, ?_⟩),
          hres⟩
        rw [hs]
        rfl
      · right
        have hrec := (scanDummies_recorded hscan).2 i d s (hres.getElem?.mpr ⟨hi, hs⟩)
        have hargs := hv.args c hl.mem
        rwa [loopActual_eq hargs (kwargs_eq hargs)] at hrec)
    (by
      intro t₀ c c' t₁ hc hr q hl i d s hi hs
      rcases hr q hl i d s hi hs with ⟨hu, hres⟩ | hrec
      · exact Or.inl ⟨(le_scanCall hc).undecidable s hu, hres⟩
      · exact Or.inr (hrec.mono (le_scanCall hc)))
    h
  exact hall c (mem_filter.mpr ⟨hl.mem, hl.walked⟩) q hl

/-- A dummy that a call which is looked at has: its procedure, its number and its call. -/
structure LookedDummy (code : Code ConstEval.Expr) (keepers : List Spec)
    (c : Call ConstEval.Expr) (q : Procedure ConstEval.Expr) (i : ℕ) (d : Dummy) (s : Spec) :
    Prop where
  looked : Looked code keepers c q
  dummy : q.dummies[i]? = some d
  spec : d.spec = some s
  resolved : AllResolved q

/-- **Every record is that of a call that is looked at.** -/
structure Origin (P : Processor) (tolerate : Bool) (code : Code ConstEval.Expr)
    (keepers : List Spec) (t : Table P) : Prop where
  possible : ∀ s, ∀ o ∈ t.possible s, ∃ c q i d, LookedDummy code keepers c q i d s ∧
    d.out = false ∧ d.shape = false ∧ ∀ w, o = some w → ∃ x,
      actualOf c.args.toList i d.name = some (.literal x) ∧
        constEval P tolerate x = .ok (some w)
  presence : ∀ s, ∀ b ∈ t.presence s, ∃ c q i d, LookedDummy code keepers c q i d s ∧
    d.optional = true

theorem scanCalls_origin (hv : ValidCode code)
    (h : scanCalls P tolerate code keepers = .ok t) : Origin P tolerate code keepers t := by
  refine foldlM_invariant (I := Origin P tolerate code keepers) ?_ h
    ⟨fun _ _ ho => absurd ho not_mem_nil, fun _ _ hb => absurd hb not_mem_nil⟩
  intro t₀ c t₁ hmem hc horig
  obtain ⟨hcode, hwalked⟩ := mem_filter.mp hmem
  rcases scanCall_cases hc with rfl | ⟨q, hq, hnames, hkeeper, ⟨-, rfl⟩ | ⟨hres, hscan⟩⟩
  · exact horig
  · constructor
    · intro s o ho
      rw [foldl_possible] at ho
      exact horig.possible s o ho
    · intro s b hb
      rw [foldl_presence] at hb
      exact horig.presence s b hb
  · have hl : Looked code keepers c q := ⟨hcode, hwalked, hnames, hq, hkeeper⟩
    have hargs := hv.args c hcode
    constructor
    · intro s o ho
      rcases scanDummies_possible hscan ho with ho | ⟨i, d, hi, hout, hshape, hw⟩
      · exact horig.possible s o ho
      · obtain ⟨hd, hs⟩ := hres.getElem?.mp hi
        refine ⟨c, q, i, d, ⟨hl, hd, hs, hres⟩, hout, hshape, ?_⟩
        intro w how
        obtain ⟨x, hx, hval⟩ := hw w how
        rw [loopActual_eq hargs (kwargs_eq hargs)] at hx
        exact ⟨x, hx, hval⟩
    · intro s b hb
      rcases scanDummies_presence hscan hb with hb | ⟨d, hd, ho⟩
      · exact horig.presence s b hb
      · obtain ⟨i, hi⟩ := List.getElem?_of_mem hd
        obtain ⟨hd', hs⟩ := hres.getElem?.mp hi
        exact ⟨c, q, i, d, ⟨hl, hd', hs, hres⟩, ho⟩

end ArgumentConstants
