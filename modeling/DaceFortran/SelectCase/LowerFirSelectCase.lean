/-
# `LowerFirSelectCase`

The pass that lowers a `fir.select_case` to a chain of comparisons and conditional branches:
the condition of one case, the check blocks it builds case by case, and what is left of the
block when a case turns out not to be one of the known kinds.
-/
import Mathlib.Data.Int.Notation
import Mathlib.Data.List.Basic

open List

namespace SelectCase

/-! ## Values -/

/-- What `arith.cmpf` compares: a type of floats with its ordered comparisons. -/
structure Floats where
  Carrier : Type
  oeq : Carrier → Carrier → Bool
  oge : Carrier → Carrier → Bool
  ole : Carrier → Carrier → Bool

variable {F : Floats}

/-- A selector or an operand to compare it with; an integer by its signed value. -/
inductive Value (F : Floats) where
  | int (n : ℤ)
  | float (x : F.Carrier)

inductive Pred where
  | eq
  | ge
  | le
  deriving DecidableEq

/-- `arith.cmpi` and `arith.cmpf`, on values of the type they are for. -/
def compare (isFloat : Bool) (p : Pred) : Value F → Value F → Bool
  | .int a, .int b =>
    !isFloat && match p with
      | .eq => decide (a = b)
      | .ge => decide (b ≤ a)
      | .le => decide (a ≤ b)
  | .float x, .float y =>
    isFloat && match p with
      | .eq => F.oeq x y
      | .ge => F.oge x y
      | .le => F.ole x y
  | _, _ => false

/-! ## Code -/

/-- The attribute of a case. -/
inductive Tag where
  | point
  | interval
  | lower
  | upper
  | unit
  | other (n : ℕ)
  deriving DecidableEq

structure Case where
  tag : Tag
  compareOperands : Option (List ℕ)
  successor : ℕ
  deriving DecidableEq

/-- A `fir.select_case`. -/
structure Select where
  isFloat : Bool
  selector : ℕ
  cases : List Case
  deriving DecidableEq

/-- An operation: the result of a comparison is a flag of its own number; `other` is any operation
the pass neither reads nor makes. -/
inductive Op where
  | other (n : ℕ)
  | cmp (flag : ℕ) (isFloat : Bool) (p : Pred) (a b : ℕ)
  | and (flag f g : ℕ)
  | select (s : Select)
  | condBr (flag : ℕ) (onTrue onFalse : ℕ)
  | br (dest : ℕ)
  deriving DecidableEq

/-- The blocks of a region in order, with their operations, and the numbers that are not used
yet. -/
structure Region where
  order : List ℕ
  ops : ℕ → List Op
  nextLabel : ℕ
  nextFlag : ℕ

/-! ## The condition of a case -/

/-- What has been emitted, the flag it leaves, and the next free one. -/
structure Condition where
  ops : List Op
  flag : ℕ
  nextFlag : ℕ

/-- `buildCaseCondition` -/
def buildCaseCondition (nextFlag : ℕ) (isFloat : Bool) (selector : ℕ) (tag : Tag)
    (cmpOps : List ℕ) :
    Option Condition :=
  match tag, cmpOps with
  | .point, [v] => some ⟨[.cmp nextFlag isFloat .eq selector v], nextFlag, nextFlag + 1⟩
  | .interval, [lo, hi] =>
    some ⟨[.cmp nextFlag isFloat .ge selector lo, .cmp (nextFlag + 1) isFloat .le selector hi,
      .and (nextFlag + 2) nextFlag (nextFlag + 1)], nextFlag + 2, nextFlag + 3⟩
  | .lower, [lo] => some ⟨[.cmp nextFlag isFloat .ge selector lo], nextFlag, nextFlag + 1⟩
  | .upper, [hi] => some ⟨[.cmp nextFlag isFloat .le selector hi], nextFlag, nextFlag + 1⟩
  | _, _ => none

/-! ## The chain -/

/-- Operations emitted into a block: before the terminator in the block of the `fir.select_case`, at
the end elsewhere. -/
def Region.emit (R : Region) (parent current : ℕ) (new : List Op) : Region :=
  { R with
    ops := Function.update R.ops current
      (if current = parent then (R.ops current).dropLast ++ new ++ (R.ops current).getLast?.toList
        else R.ops current ++ new) }

/-- `createBlock`, next to a block. -/
def Region.createAfter (R : Region) (current : ℕ) : Region :=
  { R with
    order := R.order.takeWhile (· ≠ current) ++ current :: R.nextLabel ::
      (R.order.dropWhile (· ≠ current)).tail
    ops := Function.update R.ops R.nextLabel []
    nextLabel := R.nextLabel + 1 }

/-- The loop over the cases other than the default: the region as it is then, and whether it came to
the end. -/
def lowerCases (s : Select) (parent default : ℕ) : List Case → ℕ → Region → Region × Bool
  | [], _, R => (R, true)
  | c :: rest, current, R =>
    match c.compareOperands.bind (buildCaseCondition R.nextFlag s.isFloat s.selector c.tag) with
    -- what the cases before have emitted stays
    | none => (R, false)
    | some cond =>
      let R₁ := { R.emit parent current cond.ops with nextFlag := cond.nextFlag }
      if rest = [] then
        lowerCases s parent default rest default
          (R₁.emit parent current [.condBr cond.flag c.successor default])
      else
        let R₂ := R₁.createAfter current
        lowerCases s parent default rest R₁.nextLabel
          (R₂.emit parent current [.condBr cond.flag c.successor R₁.nextLabel])

def Select.nonDefault (s : Select) : List Case := s.cases.filter fun c => decide (c.tag ≠ .unit)

/-- The successor of the last `unit` case. -/
def Select.defaultDest (s : Select) : Option ℕ :=
  (s.cases.filter fun c => decide (c.tag = .unit)).getLast?.map Case.successor

/-- The terminator erased. -/
def Region.erase (R : Region) (parent : ℕ) : Region :=
  { R with ops := Function.update R.ops parent (R.ops parent).dropLast }

/-- `rewriteSelectCase`, on the `fir.select_case` that ends a block. -/
def rewriteSelectCase (s : Select) (parent : ℕ) (R : Region) : Region × Bool :=
  match s.defaultDest with
  | none => (R, false)
  | some default =>
    let r := lowerCases s parent default s.nonDefault parent R
    if r.2 then
      ((if s.nonDefault = [] then r.1.emit parent parent [.br default] else r.1).erase parent, true)
    else r

-- the equations of the rewriting, made once for the proofs over it
attribute [local simp] lowerCases rewriteSelectCase buildCaseCondition

end SelectCase

/-
# The arm that is selected

Where control goes from the chain the pass has built, and where a `fir.select_case` sends
it: the two agree whenever the pass comes to its end, and a `fir.select_case` that it gives
up on is left alone only if it gives up on the first case.
-/

namespace SelectCase

variable {F : Floats}

/-! ## What a `fir.select_case` does -/

section Matching

variable (vals : ℕ → Value F) (s : Select)

/-- The case holds of the selector. -/
def Case.Matches (c : Case) : Prop :=
  match c.tag, c.compareOperands with
  | .point, some [v] => compare s.isFloat .eq (vals s.selector) (vals v) = true
  | .interval, some [lo, hi] =>
    compare s.isFloat .ge (vals s.selector) (vals lo) = true ∧
      compare s.isFloat .le (vals s.selector) (vals hi) = true
  | .lower, some [lo] => compare s.isFloat .ge (vals s.selector) (vals lo) = true
  | .upper, some [hi] => compare s.isFloat .le (vals s.selector) (vals hi) = true
  | _, _ => False

/-- The first matching case of a list sends control to a block. -/
def FirstMatch : List Case → ℕ → Prop
  | [], _ => False
  | c :: cs, d => (c.Matches vals s ∧ c.successor = d) ∨ (¬ c.Matches vals s ∧ FirstMatch cs d)

/-- The first matching case, or the default when none matches. -/
def Select.Selects (d : ℕ) : Prop :=
  FirstMatch vals s s.nonDefault d ∨
    ((∀ c ∈ s.nonDefault, ¬ c.Matches vals s) ∧ ∃ c ∈ s.cases, c.tag = .unit ∧ c.successor = d)

end Matching

/-- A case of a known kind, with the operands it compares with. -/
def Case.Lowerable (c : Case) : Prop :=
  match c.tag, c.compareOperands with
  | .point, some [_] | .interval, some [_, _] | .lower, some [_] | .upper, some [_] => True
  | _, _ => False

/-! ## Control -/

/-- Control goes from operations through the blocks from `bound` on, which the pass has made, to a
block of before. -/
inductive Leads (ops : ℕ → List Op) (bound : ℕ) (vals : ℕ → Value F) :
    List Op → (ℕ → Bool) → ℕ → Prop
  | cmp {flag a b : ℕ} {isFloat : Bool} {p : Pred} {rest : List Op} {flags : ℕ → Bool} {d : ℕ} :
      Leads ops bound vals rest
        (Function.update flags flag (compare isFloat p (vals a) (vals b))) d →
      Leads ops bound vals (.cmp flag isFloat p a b :: rest) flags d
  | and {flag f g : ℕ} {rest : List Op} {flags : ℕ → Bool} {d : ℕ} :
      Leads ops bound vals rest (Function.update flags flag (flags f && flags g)) d →
      Leads ops bound vals (.and flag f g :: rest) flags d
  | br {l : ℕ} {rest : List Op} {flags : ℕ → Bool} : l < bound →
      Leads ops bound vals (.br l :: rest) flags l
  | leave {flag t e l : ℕ} {rest : List Op} {flags : ℕ → Bool} :
      l = (if flags flag then t else e) → l < bound →
        Leads ops bound vals (.condBr flag t e :: rest) flags l
  | goOn {flag t e l : ℕ} {rest : List Op} {flags : ℕ → Bool} {d : ℕ} :
      l = (if flags flag then t else e) → bound ≤ l → Leads ops bound vals (ops l) flags d →
      Leads ops bound vals (.condBr flag t e :: rest) flags d

section Control

variable {ops : ℕ → List Op} {bound : ℕ} {vals : ℕ → Value F}

/-- Only the blocks the pass has made matter. -/
theorem Leads.congr {ops' : ℕ → List Op} (hops : ∀ l, bound ≤ l → ops' l = ops l) {l : List Op}
    {flags : ℕ → Bool} {d : ℕ} (h : Leads ops bound vals l flags d) :
    Leads ops' bound vals l flags d := by
  induction h with
  | cmp _ ih => exact .cmp ih
  | and _ ih => exact .and ih
  | br hl => exact .br hl
  | leave hl hb => exact .leave hl hb
  | goOn hl hb _ ih =>
    refine .goOn hl hb ?_
    rw [hops _ hb]
    exact ih

/-! ## Conditions -/

theorem lowerable_iff (n : ℕ) (isFloat : Bool) (sel : ℕ) {c : Case} :
    c.Lowerable ↔ ∃ cond, c.compareOperands.bind (buildCaseCondition n isFloat sel c.tag) =
      some cond := by
  obtain ⟨tag, operands, succ⟩ := c
  unfold Case.Lowerable
  constructor
  · intro h
    split at h
    · exact ⟨_, by simp_all [buildCaseCondition]; rfl⟩
    · exact ⟨_, by simp_all [buildCaseCondition]; rfl⟩
    · exact ⟨_, by simp_all [buildCaseCondition]; rfl⟩
    · exact ⟨_, by simp_all [buildCaseCondition]; rfl⟩
    · cases h
  · rintro ⟨cond, h⟩
    obtain ⟨l, hl, h⟩ := Option.bind_eq_some_iff.1 h
    simp only at hl
    subst hl
    unfold buildCaseCondition at h
    simp only at h
    split at h
    · trivial
    · trivial
    · trivial
    · trivial
    · cases h

/-- **The condition of a case**: what is emitted leaves the flag true exactly if the case
matches. -/
theorem condition_leads {s : Select} {c : Case} {n : ℕ} {cond : Condition}
    (h : c.compareOperands.bind (buildCaseCondition n s.isFloat s.selector c.tag) = some cond)
    (flags : ℕ → Bool) :
    ∃ flags', (flags' cond.flag = true ↔ c.Matches vals s) ∧
      ∀ rest d, Leads ops bound vals rest flags' d →
        Leads ops bound vals (cond.ops ++ rest) flags d := by
  obtain ⟨tag, operands, succ⟩ := c
  obtain ⟨l, hl, h⟩ := Option.bind_eq_some_iff.1 h
  simp only at hl
  subst hl
  unfold buildCaseCondition at h
  simp only at h
  split at h
  · cases h
    exact ⟨_, by simp [Case.Matches], fun rest d hd => .cmp hd⟩
  · cases h
    exact ⟨_, by simp [Case.Matches], fun rest d hd => .cmp (.cmp (.and hd))⟩
  · cases h
    exact ⟨_, by simp [Case.Matches], fun rest d hd => .cmp hd⟩
  · cases h
    exact ⟨_, by simp [Case.Matches], fun rest d hd => .cmp hd⟩
  · cases h

end Control

/-! ## The chain -/

/-- What stays behind the emitted operations of a block. -/
def tailOf (s : Select) (parent current : ℕ) : List Op :=
  if current = parent then [.select s] else []

section Chain

variable {s : Select} {parent default : ℕ}

variable {R : Region} {c : Case}

variable {current l : ℕ} {pre : List Op} {rest cs : List Case}

theorem emit_ops (h : R.ops current = pre ++ tailOf s parent current)
    (new : List Op) : (R.emit parent current new).ops current = pre ++ new ++
      tailOf s parent current := by
  unfold Region.emit
  simp only [Function.update_self]
  rw [h]
  unfold tailOf
  split_ifs
  · simp
  · simp

theorem emit_ops_of_ne (h : l ≠ current) (new : List Op) :
    (R.emit parent current new).ops l = R.ops l := Function.update_of_ne h _ _

theorem createAfter_ops_of_ne (h : l ≠ R.nextLabel) :
    (R.createAfter current).ops l = R.ops l := Function.update_of_ne h _ _

/-- One turn of the loop, for a case that can be lowered. -/
theorem lowerCases_cons {cond : Condition}
    (h : c.compareOperands.bind (buildCaseCondition R.nextFlag s.isFloat s.selector c.tag) =
      some cond) :
    lowerCases s parent default (c :: rest) current R =
      if rest = [] then
        lowerCases s parent default rest default
          ({ R.emit parent current cond.ops with nextFlag := cond.nextFlag }.emit parent current
            [.condBr cond.flag c.successor default])
      else
        lowerCases s parent default rest R.nextLabel
          (({ R.emit parent current cond.ops with nextFlag := cond.nextFlag }.createAfter
            current).emit parent
            current [.condBr cond.flag c.successor R.nextLabel]) := by
  rw [lowerCases, h]
  rfl

/-- The loop leaves the blocks of before alone, but for the one it is in. -/
theorem lowerCases_frame (cs : List Case) (current : ℕ) (R : Region) (hl : l < R.nextLabel)
    (hne : l ≠ current) : (lowerCases s parent default cs current R).1.ops l = R.ops l := by
  induction cs generalizing current R with
  | nil => rfl
  | cons c rest ih =>
    cases h : c.compareOperands.bind (buildCaseCondition R.nextFlag s.isFloat s.selector c.tag) with
    | none =>
      rw [lowerCases, h]
    | some cond =>
      rw [lowerCases_cons h]
      split_ifs with hrest
      · subst hrest
        show (Region.emit _ _ _ _).ops l = R.ops l
        rw [emit_ops_of_ne hne]
        exact emit_ops_of_ne hne _
      · rw [ih]
        · rw [emit_ops_of_ne hne]
          exact (createAfter_ops_of_ne
            (R := { R.emit parent current cond.ops with nextFlag := cond.nextFlag })
            (Nat.ne_of_lt hl)).trans (emit_ops_of_ne hne _)
        · exact Nat.lt_succ_of_lt hl
        · exact Nat.ne_of_lt hl

/-- Where the cases send control: the first that matches, the default when none does. -/
def Target (vals : ℕ → Value F) (s : Select) (default : ℕ) (cs : List Case) (d : ℕ) : Prop :=
  FirstMatch vals s cs d ∨ ((∀ c ∈ cs, ¬ c.Matches vals s) ∧ d = default)

theorem Target.of_match {vals : ℕ → Value F} (h : c.Matches vals s) :
    Target vals s default (c :: cs) c.successor := Or.inl (Or.inl ⟨h, rfl⟩)

theorem Target.of_not_match {vals : ℕ → Value F} {d : ℕ}
    (h : ¬ c.Matches vals s) (hd : Target vals s default cs d) :
    Target vals s default (c :: cs) d := by
  rcases hd with hd | ⟨hd, rfl⟩
  · exact Or.inl (Or.inr ⟨h, hd⟩)
  · refine Or.inr ⟨?_, rfl⟩
    intro c' hc'
    rcases mem_cons.1 hc' with rfl | hc'
    · exact h
    · exact hd c' hc'

/-- **The chain of the cases**: control leaves it to where the cases send it. -/
theorem lowerCases_leads {bound : ℕ} (hparent : parent < bound) (hdefault : default < bound)
    (cs : List Case) (hne : cs ≠ []) (hcs : ∀ c ∈ cs, c.Lowerable ∧ c.successor < bound)
    (current : ℕ)
    (R : Region) (pre : List Op) (hbound : bound ≤ R.nextLabel) (hcur : current < R.nextLabel)
    (hops : R.ops current = pre ++ tailOf s parent current) :
    ∃ chain, (lowerCases s parent default cs current R).2 = true ∧
      (lowerCases s parent default cs current R).1.ops current = pre ++ chain ++
        tailOf s parent current ∧
      ∀ (F : Floats) (vals : ℕ → Value F) flags rest, ∃ d,
        Leads (lowerCases s parent default cs current R).1.ops bound vals (chain ++ rest) flags d ∧
          Target vals s default cs d := by
  -- on the cases, each of which emits into the block the one before has created
  induction cs generalizing current R pre with
  | nil => exact (hne rfl).elim
  | cons c rest ih =>
    obtain ⟨hlow, hsucc⟩ := hcs c mem_cons_self
    obtain ⟨cond, hcond⟩ := (lowerable_iff R.nextFlag s.isFloat s.selector).1 hlow
    have hops₁ := emit_ops hops cond.ops
    rw [lowerCases_cons hcond]
    split_ifs with hrest
    · -- the last check goes on to the default
      subst hrest
      refine ⟨cond.ops ++ [.condBr cond.flag c.successor default], rfl, ?_, ?_⟩
      · have := emit_ops (R := { R.emit parent current cond.ops with nextFlag := cond.nextFlag })
          hops₁
          [.condBr cond.flag c.successor default]
        rw [← append_assoc]
        exact this
      · intro F vals flags rest
        obtain ⟨flags', hflag, hleads⟩ := condition_leads hcond flags
        rw [append_assoc]
        by_cases hm : c.Matches vals s
        · refine ⟨c.successor, hleads _ _ (.leave ?_ hsucc), .of_match hm⟩
          rw [if_pos (hflag.2 hm)]
        · refine ⟨default, hleads _ _ (.leave ?_ hdefault), .of_not_match hm ?_⟩
          · rw [if_neg (fun h => hm (hflag.1 h))]
          · exact Or.inr ⟨fun _ h => (not_mem_nil h).elim, rfl⟩
    · -- a check that fails goes on to a new block
      have hnew : R.nextLabel ≠ current := by omega
      have hnewParent : R.nextLabel ≠ parent := by omega
      set R₁ : Region := { R.emit parent current cond.ops with nextFlag := cond.nextFlag } with hR₁
      set R₃ := (R₁.createAfter current).emit parent current
        [.condBr cond.flag c.successor R.nextLabel] with hR₃
      have hcur₃ : R₃.ops current = pre ++ cond.ops ++
        [.condBr cond.flag c.successor R.nextLabel] ++
          tailOf s parent current := by
        apply emit_ops
        exact (createAfter_ops_of_ne (R := R₁) (fun h => hnew h.symm)).trans hops₁
      have hnew₃ : R₃.ops R.nextLabel = [] ++ tailOf s parent R.nextLabel := by
        rw [hR₃, emit_ops_of_ne hnew]
        simp only [tailOf, if_neg hnewParent, append_nil]
        exact Function.update_self _ _ _
      have hlt₃ : R.nextLabel < R₃.nextLabel := Nat.lt_succ_self _
      obtain ⟨chain, hok, hchain, hleads'⟩ :=
        ih hrest (fun c hc => hcs c (mem_cons_of_mem _ hc)) R.nextLabel
        R₃ [] (by omega) hlt₃ hnew₃
      refine ⟨cond.ops ++ [.condBr cond.flag c.successor R.nextLabel], hok, ?_, ?_⟩
      · rw [lowerCases_frame rest R.nextLabel R₃ (by omega) (fun h => hnew h.symm), hcur₃]
        simp only [append_assoc]
      · intro F vals flags more
        obtain ⟨flags', hflag, hleads⟩ := condition_leads hcond flags
        rw [append_assoc]
        by_cases hm : c.Matches vals s
        · refine ⟨c.successor, hleads _ _ (.leave ?_ hsucc), .of_match hm⟩
          rw [if_pos (hflag.2 hm)]
        · obtain ⟨d, hd, htarget⟩ := hleads' F vals flags' []
          refine ⟨d, hleads _ _ (.goOn ?_ hbound ?_), .of_not_match hm htarget⟩
          · rw [if_neg (fun h => hm (hflag.1 h))]
          · rw [hchain]
            simpa [tailOf, hnewParent] using hd

/-! ## Cases that cannot be lowered -/

theorem lowerCases_unlowerable (h : ¬ c.Lowerable) (rest : List Case) (current : ℕ) (R : Region) :
    lowerCases s parent default (c :: rest) current R = (R, false) := by
  cases hc : c.compareOperands.bind (buildCaseCondition R.nextFlag s.isFloat s.selector c.tag) with
  | none => rw [lowerCases, hc]
  | some cond => exact (h ((lowerable_iff _ _ _).2 ⟨cond, hc⟩)).elim

theorem lowerCases_false (h : ∃ c ∈ cs, ¬ c.Lowerable) (current : ℕ) (R : Region) :
    (lowerCases s parent default cs current R).2 = false := by
  induction cs generalizing current R with
  | nil =>
    obtain ⟨c, hc, -⟩ := h
    cases hc
  | cons c rest ih =>
    by_cases hlow : c.Lowerable
    · obtain ⟨cond, hcond⟩ := (lowerable_iff R.nextFlag s.isFloat s.selector).1 hlow
      have hrest : ∃ c ∈ rest, ¬ c.Lowerable := by
        obtain ⟨c', hc', hno⟩ := h
        rcases mem_cons.1 hc' with rfl | hc'
        · exact (hno hlow).elim
        · exact ⟨c', hc', hno⟩
      rw [lowerCases_cons hcond]
      split_ifs
      · exact ih hrest _ _
      · exact ih hrest _ _
    · rw [lowerCases_unlowerable hlow]

/-- What the first case has emitted stays in its block. -/
theorem lowerCases_emits (default : ℕ) (hlow : c.Lowerable) (hrest : rest ≠ [])
    (hparent : parent < R.nextLabel) (hops : R.ops parent = pre ++ tailOf s parent parent) :
    ∃ new, new ≠ [] ∧
      (lowerCases s parent default (c :: rest) parent R).1.ops parent = pre ++ new ++
        tailOf s parent parent := by
  obtain ⟨cond, hcond⟩ := (lowerable_iff R.nextFlag s.isFloat s.selector).1 hlow
  refine ⟨cond.ops ++ [.condBr cond.flag c.successor R.nextLabel], by simp, ?_⟩
  rw [lowerCases_cons hcond, if_neg hrest, lowerCases_frame]
  · rw [← append_assoc]
    apply emit_ops
    exact (createAfter_ops_of_ne
      (R := { R.emit parent parent cond.ops with nextFlag := cond.nextFlag })
      (Nat.ne_of_lt hparent)).trans (emit_ops hops cond.ops)
  · exact Nat.lt_succ_of_lt hparent
  · exact Nat.ne_of_lt hparent

end Chain

/-! ## The pass on one `fir.select_case` -/

/-- A `fir.select_case` at the end of a block of a region. -/
structure Site where
  region : Region
  parent : ℕ
  select : Select
  body : List Op
  ops_eq : region.ops parent = body ++ [.select select]
  parent_lt : parent < region.nextLabel
  successor_lt : ∀ c ∈ select.cases, c.successor < region.nextLabel

namespace Site

variable (S : Site)

/-- The region after the pass, and whether it was lowered. -/
def result : Region × Bool := rewriteSelectCase S.select S.parent S.region

/-- The pass selects the arm the operation selects for all values, or leaves the block as it was. -/
structure Faithful : Prop where
  selects : S.result.2 = true → ∃ chain, S.result.1.ops S.parent = S.body ++ chain ∧
    ∀ (F : Floats) (vals : ℕ → Value F) flags, ∃ d,
      Leads S.result.1.ops S.region.nextLabel vals chain flags d ∧ S.select.Selects vals d
  others : ∀ l, l < S.region.nextLabel → l ≠ S.parent → S.result.1.ops l = S.region.ops l
  untouched : S.result.2 = false → S.result.1.ops S.parent = S.region.ops S.parent

/-- There is no default, all cases can be lowered, or the first of them cannot. -/
def GivesUpFirst : Prop :=
  S.select.defaultDest = none ∨ (∀ c ∈ S.select.nonDefault, c.Lowerable) ∨
    ∃ c rest, S.select.nonDefault = c :: rest ∧ ¬ c.Lowerable

theorem ops_parent : S.region.ops S.parent = S.body ++ tailOf S.select S.parent S.parent := by
  rw [S.ops_eq, tailOf, if_pos rfl]

theorem successor_nonDefault {c : Case} (hc : c ∈ S.select.nonDefault) :
    c.successor < S.region.nextLabel :=
  S.successor_lt c (mem_filter.1 hc).1

variable {default : ℕ}

theorem exists_default (h : S.select.defaultDest = some default) :
    ∃ c ∈ S.select.cases, c.tag = .unit ∧ c.successor = default := by
  obtain ⟨c, hc, rfl⟩ := Option.map_eq_some_iff.1 h
  obtain ⟨hmem, htag⟩ := mem_filter.1 (mem_of_getLast? hc)
  exact ⟨c, hmem, by simpa using htag, rfl⟩

theorem selects_of_target {F : Floats} {vals : ℕ → Value F} {default d : ℕ}
    (hdefault : S.select.defaultDest = some default)
    (h : Target vals S.select default S.select.nonDefault d) : S.select.Selects vals d := by
  rcases h with h | ⟨h, rfl⟩
  · exact Or.inl h
  · exact Or.inr ⟨h, S.exists_default hdefault⟩

theorem erase_ops {R : Region} {parent : ℕ} {pre : List Op} {op : Op}
    (h : R.ops parent = pre ++ [op]) :
    (R.erase parent).ops parent = pre := by
  unfold Region.erase
  simp only [Function.update_self]
  rw [h, dropLast_concat]

theorem erase_ops_of_ne {R : Region} {parent l : ℕ} (h : l ≠ parent) :
    (R.erase parent).ops l = R.ops l :=
  Function.update_of_ne h _ _

/-- The pass touches no other block of before. -/
theorem result_others {l : ℕ} (hl : l < S.region.nextLabel) (hne : l ≠ S.parent) :
    S.result.1.ops l = S.region.ops l := by
  unfold result rewriteSelectCase
  cases S.select.defaultDest with
  | none => rfl
  | some default =>
    have hframe : (lowerCases S.select S.parent default S.select.nonDefault S.parent
      S.region).1.ops l =
        S.region.ops l := lowerCases_frame S.select.nonDefault S.parent S.region hl hne
    simp only
    split_ifs
    · rw [erase_ops_of_ne hne, emit_ops_of_ne hne]
      exact hframe
    · rw [erase_ops_of_ne hne]
      exact hframe
    · exact hframe

/-- What the pass does when it comes to its end. -/
theorem result_lowered (hdefault : S.select.defaultDest = some default)
    (hlow : ∀ c ∈ S.select.nonDefault, c.Lowerable) :
    ∃ chain, S.result.1.ops S.parent = S.body ++ chain ∧ S.result.2 = true ∧
      ∀ (F : Floats) (vals : ℕ → Value F) flags, ∃ d,
        Leads S.result.1.ops S.region.nextLabel vals chain flags d ∧ S.select.Selects vals d := by
  have hlt : default < S.region.nextLabel := by
    obtain ⟨c, hc, -, rfl⟩ := S.exists_default hdefault
    exact S.successor_lt c hc
  by_cases hcases : S.select.nonDefault = []
  · -- only a default
    have hresult : S.result =
        ((S.region.emit S.parent S.parent [.br default]).erase S.parent, true) := by
      unfold result rewriteSelectCase
      rw [hdefault]
      simp only [hcases, lowerCases, if_true]
    rw [hresult]
    refine ⟨[.br default], ?_, rfl, ?_⟩
    · apply erase_ops
      have := emit_ops S.ops_parent [.br default]
      rw [tailOf, if_pos rfl] at this
      exact this
    · intro F vals flags
      refine ⟨default, .br hlt, S.selects_of_target hdefault (Or.inr ⟨?_, rfl⟩)⟩
      rw [hcases]
      exact fun c hc => (not_mem_nil hc).elim
  · obtain ⟨chain, hok, hops, hleads⟩ := lowerCases_leads S.parent_lt hlt S.select.nonDefault hcases
      (fun c hc => ⟨hlow c hc, S.successor_nonDefault hc⟩) S.parent S.region S.body
        (Nat.le_refl _) S.parent_lt
      S.ops_parent
    have hresult : S.result =
        ((lowerCases S.select S.parent default S.select.nonDefault S.parent S.region).1.erase
          S.parent, true) := by
      unfold result rewriteSelectCase
      rw [hdefault]
      simp only [hok, hcases, if_true, if_false]
    rw [hresult]
    refine ⟨chain, ?_, rfl, ?_⟩
    · apply erase_ops
      rw [tailOf, if_pos rfl] at hops
      exact hops
    · intro F vals flags
      obtain ⟨d, hd, htarget⟩ := hleads F vals flags []
      refine ⟨d, ?_, S.selects_of_target hdefault htarget⟩
      rw [append_nil] at hd
      apply hd.congr
      intro l hl
      exact erase_ops_of_ne (Nat.ne_of_gt (Nat.lt_of_lt_of_le S.parent_lt hl))

/-- What the pass leaves when a case cannot be lowered. -/
theorem result_unlowerable (hdefault : S.select.defaultDest = some default)
    (h : ∃ c ∈ S.select.nonDefault, ¬ c.Lowerable) :
    S.result = ((lowerCases S.select S.parent default S.select.nonDefault S.parent S.region).1,
      false) := by
  have hfalse : (lowerCases S.select S.parent default S.select.nonDefault S.parent S.region).2 =
      false :=
    lowerCases_false h S.parent S.region
  unfold result rewriteSelectCase
  rw [hdefault]
  simp only [hfalse, Bool.false_eq_true, if_false]
  rw [← hfalse]

/-- A case that cannot be lowered after one that can: the block keeps what the first has emitted. -/
theorem result_broken (hdefault : S.select.defaultDest = some default) {c : Case}
    {rest : List Case} (hcases : S.select.nonDefault = c :: rest) (hlow : c.Lowerable)
    (h : ∃ c ∈ S.select.nonDefault, ¬ c.Lowerable) :
    S.result.2 = false ∧ S.result.1.ops S.parent ≠ S.region.ops S.parent := by
  have hrest : rest ≠ [] := by
    rintro rfl
    obtain ⟨c', hc', hno⟩ := h
    rw [hcases, mem_singleton] at hc'
    rw [hc'] at hno
    exact hno hlow
  rw [S.result_unlowerable hdefault h, hcases]
  refine ⟨rfl, ?_⟩
  obtain ⟨new, hnew, hops⟩ := lowerCases_emits default hlow hrest S.parent_lt S.ops_parent
  intro he
  rw [hops, S.ops_parent, append_assoc, append_right_inj] at he
  have hlen := congrArg List.length he
  rw [length_append] at hlen
  exact hnew (length_eq_zero_iff.1 (by omega))

theorem faithful_of_unchanged (h : S.result = (S.region, false)) : S.Faithful := by
  refine ⟨?_, fun l hl hne => S.result_others hl hne, fun _ => by rw [h]⟩
  intro htrue
  rw [h] at htrue
  cases htrue

theorem result_no_default (h : S.select.defaultDest = none) : S.result = (S.region, false) := by
  unfold result rewriteSelectCase
  rw [h]

/-- **The pass is faithful exactly if it gives up, where it has to, on the first case.** -/
theorem rewriteSelectCase_faithful_iff (S : Site) : S.Faithful ↔ S.GivesUpFirst := by
  constructor
  · intro h
    by_contra hno
    simp only [GivesUpFirst, not_or] at hno
    obtain ⟨hdefault, hall, hfirst⟩ := hno
    obtain ⟨default, hdefault⟩ := Option.ne_none_iff_exists'.1 hdefault
    have hbad : ∃ c ∈ S.select.nonDefault, ¬ c.Lowerable := by
      by_contra hnone
      apply hall
      intro c hc
      by_contra hlow
      exact hnone ⟨c, hc, hlow⟩
    cases hcases : S.select.nonDefault with
    | nil =>
      rw [hcases] at hbad
      obtain ⟨c, hc, -⟩ := hbad
      cases hc
    | cons c rest =>
      have hlow : c.Lowerable := by
        by_contra hlow
        exact hfirst ⟨c, rest, hcases, hlow⟩
      -- the checks of the first case are left behind when a later one cannot be lowered
      obtain ⟨hfalse, hchanged⟩ := S.result_broken hdefault hcases hlow hbad
      exact hchanged (h.untouched hfalse)
  · rintro (hdefault | hlow | ⟨c, rest, hcases, hlow⟩)
    · exact S.faithful_of_unchanged (S.result_no_default hdefault)
    · cases hdefault : S.select.defaultDest with
      | none =>
        exact S.faithful_of_unchanged (S.result_no_default hdefault)
      | some default =>
        obtain ⟨chain, hops, htrue, hleads⟩ := S.result_lowered hdefault hlow
        refine ⟨fun _ => ⟨chain, hops, hleads⟩, fun l hl hne => S.result_others hl hne, ?_⟩
        intro hfalse
        rw [htrue] at hfalse
        cases hfalse
    · apply S.faithful_of_unchanged
      cases hdefault : S.select.defaultDest with
      | none => exact S.result_no_default hdefault
      | some default =>
        have hbad : ∃ c ∈ S.select.nonDefault, ¬ c.Lowerable := by
          rw [hcases]
          exact ⟨c, List.mem_cons_self, hlow⟩
        rw [S.result_unlowerable hdefault hbad, hcases, lowerCases_unlowerable hlow]

/-! ## An interval with one operand -/

/-- `case (1)`, then an interval with a bound missing, then the default. -/
def missingBound : Select where
  isFloat := false
  selector := 0
  cases := [⟨.point, some [1], 1⟩, ⟨.interval, some [2], 2⟩, ⟨.unit, some [], 3⟩]

def missingBoundSite : Site where
  region := ⟨[0, 1, 2, 3], fun l => if l = 0 then [.select missingBound] else [], 4, 0⟩
  parent := 0
  select := missingBound
  body := []
  ops_eq := rfl
  parent_lt := by decide
  successor_lt := by decide

/-- The block is left with the comparison and the branch of `case (1)` before its terminator. -/
theorem not_faithful_missingBound : ¬ missingBoundSite.Faithful := by
  intro h
  have hops := h.untouched (by decide)
  exact absurd hops (by decide)

end Site

end SelectCase
