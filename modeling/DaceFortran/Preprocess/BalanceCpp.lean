/-
# `_balance_cpp`

The cpp conditionals that the cut of a module block leaves without a partner are dropped from its
lines.  An `#else` is judged when it is reached, while it is not yet known whether its opener has an
`#endif`: that of an opener without one stays behind.
-/
import DaceFortran.Lib.Brackets
import DaceFortran.Preprocess.StripOpenmp

open Brackets List

namespace Preprocess

/-! ## The function -/

/-- The pattern of a line: `_CPP_OPEN_RE`, `_CPP_CLOSE_RE`, `_CPP_MID_RE` or none of them. -/
inductive Directive
  | opens
  | closes
  | mid
  | other
deriving DecidableEq

def directive (line : Line) : Directive :=
  if cppKeyword "if".toList line || cppKeyword "ifdef".toList line ||
    cppKeyword "ifndef".toList line then .opens
  else if cppKeyword "endif".toList line then .closes
  else if cppKeyword "else".toList line || cppKeyword "elif".toList line then .mid
  else .other

/-- The loop on line `i`, with `open_idx`, its last entry first, and `drop`. -/
def balanceStep (i : ℕ) (ln : Line) (openIdx drop : List ℕ) : List ℕ × List ℕ :=
  match directive ln with
  | .opens => (i :: openIdx, drop)
  | .closes => if openIdx = [] then ([], i :: drop) else (openIdx.tail, drop)
  | .mid => if openIdx = [] then ([], i :: drop) else (openIdx, drop)
  | .other => (openIdx, drop)

/-- The loop from line `i` on; the openers left over are dropped. -/
def balanceFrom : ℕ → List ℕ → List ℕ → List Line → List ℕ
  | _, openIdx, drop, [] => openIdx ++ drop
  | i, openIdx, drop, ln :: lines =>
    balanceFrom (i + 1) (balanceStep i ln openIdx drop).1 (balanceStep i ln openIdx drop).2 lines

/-- `ln for i, ln in enumerate(lines) if i not in drop`, from line `i` on. -/
def keepFrom (drop : List ℕ) : ℕ → List Line → List Line
  | _, [] => []
  | i, ln :: lines => if i ∈ drop then keepFrom drop (i + 1) lines else ln ::
      keepFrom drop (i + 1) lines

/-- `_balance_cpp`, on the lines of the block. -/
def balanceCpp (lines : List Line) : List Line := keepFrom (balanceFrom 0 [] [] lines) 0 lines

/-! ## What it is for -/

/-- Openers and `#endif` are the brackets. -/
def bracket (line : Line) : Side :=
  match directive line with
  | .opens => .opens
  | .closes => .closes
  | _ => .plain

/-- With `n` conditionals open, every `#else`, `#elif` and `#endif` stands in an open conditional,
and in the end none is open. -/
def Nested : ℕ → List Line → Prop
  | n, [] => n = 0
  | n, ln :: lines =>
    match directive ln with
    | .opens => Nested (n + 1) lines
    | .closes => 0 < n ∧ Nested (n - 1) lines
    | .mid => 0 < n ∧ Nested n lines
    | .other => Nested n lines

/-- The line between `pre` and `post` is a directive of no group: an opener without its `#endif`, an
`#endif` without its opener, an `#else` or `#elif` outside or in a conditional without `#endif`. -/
def Unmatched (pre : List Line) (ln : Line) (post : List Line) : Prop :=
  match directive ln with
  | .opens => ¬Closed bracket post
  | .closes => ¬Opened bracket pre
  | .mid => ¬(Opened bracket pre ∧ Closed bracket post)
  | .other => False

/-- Behind `pre`, the lines are kept in order but for unmatched directives. -/
inductive DropsUnmatched : List Line → List Line → List Line → Prop
  | nil {pre : List Line} : DropsUnmatched pre [] []
  | keep {pre lines out : List Line} {ln : Line} (h : DropsUnmatched (pre ++ [ln]) lines out) :
      DropsUnmatched pre (ln :: lines) (ln :: out)
  | drop {pre lines out : List Line} {ln : Line} (hln : Unmatched pre ln lines)
      (h : DropsUnmatched (pre ++ [ln]) lines out) : DropsUnmatched pre (ln :: lines) out

/-- The block that comes out is balanced, nothing but unmatched directives is dropped, and a second
time nothing is. -/
structure Balances (lines : List Line) : Prop where
  nested : Nested 0 (balanceCpp lines)
  drops : DropsUnmatched [] lines (balanceCpp lines)
  again : balanceCpp (balanceCpp lines) = balanceCpp lines

/-! ## The lines kept -/

/-- The lines kept where `n` conditionals are open: an opener that is closed behind, and any other
directive where a conditional is open. -/
def kept : ℕ → List Line → List Line
  | _, [] => []
  | n, ln :: lines =>
    match directive ln with
    | .opens => if 0 < pending bracket lines then ln :: kept (n + 1) lines else kept (n + 1) lines
    | .closes => if 0 < n then ln :: kept (n - 1) lines else kept (n - 1) lines
    | .mid => if 0 < n then ln :: kept n lines else kept n lines
    | .other => ln :: kept n lines

variable {lines : List Line}

attribute [local simp] kept balanceFrom balanceStep Nested bracket

/-- Of the lines in front, those dropped earlier are dropped, and the openers that stay open. -/
theorem mem_balanceFrom : ∀ {i j : ℕ} {openIdx drop : List ℕ}, j < i →
    (j ∈ balanceFrom i openIdx drop lines ↔
      j ∈ openIdx.drop (pending bracket lines) ∨ j ∈ drop) := by
  induction lines with
  | nil =>
    intro i j openIdx drop _
    exact mem_append
  | cons ln lines ih =>
    intro i j openIdx drop hj
    have hne : j ≠ i := Nat.ne_of_lt hj
    rw [balanceFrom, ih (Nat.lt_succ_of_lt hj)]
    cases hd : directive ln with
    | opens =>
      simp only [balanceStep, pending, bracket, hd]
      cases pending bracket lines with
      | zero => simp [hne]
      | succ p => rfl
    | closes =>
      simp only [balanceStep, pending, bracket, hd]
      cases openIdx with
      | nil => simp [hne]
      | cons a openIdx => rfl
    | mid =>
      simp only [balanceStep, pending, bracket, hd]
      cases openIdx with
      | nil => simp [hne]
      | cons a openIdx => rfl
    | other => simp only [balanceStep, pending, bracket, hd]

/-- What is kept of the lines from `i` on. -/
theorem keepFrom_balanceFrom : ∀ {i : ℕ} {openIdx drop : List ℕ},
    (∀ j ∈ openIdx, j < i) → (∀ j ∈ drop, j < i) →
    keepFrom (balanceFrom i openIdx drop lines) i lines = kept openIdx.length lines := by
  induction lines with
  | nil => intros; rfl
  | cons ln lines ih =>
    intro i openIdx drop hopen hdrop
    have hold : ∀ {l : List ℕ}, (∀ j ∈ l, j < i) → ∀ j ∈ l, j < i + 1 :=
      fun hl j hj => Nat.lt_succ_of_lt (hl j hj)
    have hnew : ∀ {l : List ℕ}, (∀ j ∈ l, j < i) → ∀ j ∈ i :: l, j < i + 1 :=
      fun hl => forall_mem_cons.2 ⟨Nat.lt_succ_self i, hold hl⟩
    have hmem : ∀ {openIdx drop : List ℕ}, i ∈ balanceFrom (i + 1) openIdx drop lines ↔
        i ∈ openIdx.drop (pending bracket lines) ∨ i ∈ drop := mem_balanceFrom (Nat.lt_succ_self i)
    have hi_open : ∀ n, i ∉ openIdx.drop n :=
      fun n h => Nat.lt_irrefl i (hopen i (mem_of_mem_drop h))
    have hi_drop : i ∉ drop := fun h => Nat.lt_irrefl i (hdrop i h)
    rw [keepFrom, kept, balanceFrom, balanceStep]
    cases hd : directive ln with
    | opens =>
      simp only [hmem, hi_drop, or_false, ih (hnew hopen) (hold hdrop), length_cons]
      cases pending bracket lines with
      | zero => simp
      | succ p => simp [hi_open p]
    | closes =>
      by_cases hnil : openIdx = []
      · subst hnil
        simpa [hmem] using ih (hold hopen) (hnew hdrop)
      · have htail : ∀ j ∈ openIdx.tail, j < i := fun j hj => hopen j (mem_of_mem_tail hj)
        simp [hmem, hi_drop, hi_open, hnil, ih (hold htail) (hold hdrop), length_pos_iff]
    | mid =>
      by_cases hnil : openIdx = []
      · subst hnil
        simpa [hmem] using ih (hold hopen) (hnew hdrop)
      · simp [hmem, hi_drop, hi_open, hnil, ih (hold hopen) (hold hdrop), length_pos_iff]
    | other => simp [hmem, hi_drop, hi_open, ih (hold hopen) (hold hdrop)]

theorem balanceCpp_eq (lines : List Line) : balanceCpp lines = kept 0 lines :=
  keepFrom_balanceFrom (fun _ h => absurd h not_mem_nil) fun _ h => absurd h not_mem_nil

/-! ## Balance -/

/-- Every `#else` and `#elif` that stands in an open conditional stands in one that is closed. -/
def Settled : ℕ → List Line → Prop
  | _, [] => True
  | n, ln :: lines =>
    match directive ln with
    | .opens => Settled (n + 1) lines
    | .closes => Settled (n - 1) lines
    | .mid => (0 < n → 0 < pending bracket lines) ∧ Settled n lines
    | .other => Settled n lines

/-- Of `n` open conditionals those that are closed behind are open in the lines kept. -/
theorem nested_kept (lines : List Line) : ∀ n,
    Nested (min n (pending bracket lines)) (kept n lines) ↔ Settled n lines := by
  induction lines with
  | nil => exact fun n => iff_of_true (Nat.min_zero n) trivial
  | cons ln lines ih =>
    intro n
    cases hd : directive ln with
    | opens =>
      have hrest := ih (n + 1)
      simp only [kept, pending, bracket, Settled, hd]
      split_ifs with hpos
      · rw [← hrest, Nested, hd]
        show Nested (min n (pending bracket lines - 1) + 1) _ ↔ _
        rw [show min n (pending bracket lines - 1) + 1 =
          min (n + 1) (pending bracket lines) by omega]
      · rw [← hrest, show min n (pending bracket lines - 1) =
          min (n + 1) (pending bracket lines) by omega]
    | closes =>
      have hrest := ih (n - 1)
      simp only [kept, pending, bracket, Settled, hd]
      split_ifs with hpos
      · rw [← hrest, Nested, hd]
        show 0 < min n (pending bracket lines + 1) ∧
          Nested (min n (pending bracket lines + 1) - 1) _ ↔ _
        rw [show min n (pending bracket lines + 1) - 1 =
          min (n - 1) (pending bracket lines) by omega]
        exact and_iff_right (by omega)
      · rw [← hrest, show min n (pending bracket lines + 1) =
          min (n - 1) (pending bracket lines) by omega]
    | mid =>
      have hrest := ih n
      simp only [kept, pending, bracket, Settled, hd]
      split_ifs with hpos
      · rw [← hrest, Nested, hd]
        exact and_congr_left' (by omega)
      · rw [← hrest]
        exact (and_iff_right fun h => absurd h hpos).symm
    | other =>
      have hrest := ih n
      simp only [kept, pending, bracket, Settled, hd]
      rw [← hrest, Nested, hd]

/-- Balanced lines are kept as they are. -/
theorem kept_of_nested : ∀ {n}, Nested n lines →
    pending bracket lines = n ∧ kept n lines = lines := by
  induction lines with
  | nil => exact fun h => ⟨h.symm, rfl⟩
  | cons ln lines ih =>
    intro n h
    rw [Nested] at h
    cases hd : directive ln with
    | opens =>
      rw [hd] at h
      obtain ⟨hpending, hkept⟩ := ih h
      simp [kept, pending, bracket, hd, hpending, hkept]
    | closes =>
      rw [hd] at h
      obtain ⟨hpending, hkept⟩ := ih h.2
      have hpos : 0 < n := h.1
      simp [kept, pending, bracket, hd, hpending, hkept, hpos]
      omega
    | mid =>
      rw [hd] at h
      obtain ⟨hpending, hkept⟩ := ih h.2
      have hpos : 0 < n := h.1
      simp [kept, pending, bracket, hd, hpending, hkept, hpos]
    | other =>
      rw [hd] at h
      obtain ⟨hpending, hkept⟩ := ih h
      simp [kept, pending, bracket, hd, hpending, hkept]

/-- Only unmatched directives are dropped. -/
theorem drops_kept (lines : List Line) :
    ∀ pre, DropsUnmatched pre lines (kept (depth bracket 0 pre) lines) := by
  induction lines with
  | nil => exact fun pre => .nil
  | cons ln lines ih =>
    intro pre
    have hrest := ih (pre ++ [ln])
    rw [depth_append, depth, bracket] at hrest
    rw [kept]
    have hopened : Opened bracket pre ↔ 0 < depth bracket 0 pre := opened_iff
    have hclosed : Closed bracket lines ↔ 0 < pending bracket lines := closed_iff
    cases hd : directive ln with
    | opens =>
      rw [hd] at hrest
      dsimp only
      split_ifs with hpos
      · exact .keep hrest
      · refine .drop ?_ hrest
        rw [Unmatched, hd]
        exact fun h => hpos (hclosed.1 h)
    | closes =>
      rw [hd] at hrest
      dsimp only
      split_ifs with hpos
      · exact .keep hrest
      · refine .drop ?_ hrest
        rw [Unmatched, hd]
        exact fun h => hpos (hopened.1 h)
    | mid =>
      rw [hd] at hrest
      dsimp only
      split_ifs with hpos
      · exact .keep hrest
      · refine .drop ?_ hrest
        rw [Unmatched, hd]
        exact fun h => hpos (hopened.1 h.1)
    | other =>
      rw [hd] at hrest
      exact .keep hrest

theorem settled_iff (lines : List Line) : ∀ pre : List Line, Settled (depth bracket 0 pre) lines ↔
    ∀ a ln b, lines = a ++ ln :: b → directive ln = .mid → Opened bracket (pre ++ a) →
      Closed bracket b := by
  induction lines with
  | nil => exact fun pre => iff_of_true trivial fun a ln b h => absurd h (by simp)
  | cons ln lines ih =>
    intro pre
    have hrest := ih (pre ++ [ln])
    rw [depth_append, depth, bracket] at hrest
    have hsplit : (∀ a ln' b, ln :: lines = a ++ ln' :: b → directive ln' = .mid →
      Opened bracket (pre ++ a) →
        Closed bracket b) ↔ (directive ln = .mid → Opened bracket pre → Closed bracket lines) ∧
          ∀ a ln' b, lines = a ++ ln' :: b → directive ln' = .mid →
            Opened bracket (pre ++ [ln] ++ a) →
            Closed bracket b := by
      constructor
      · intro h
        refine ⟨fun hm ho => h [] ln lines rfl hm (by rwa [append_nil]),
          fun a ln' b hab hm ho => ?_⟩
        exact h (ln :: a) ln' b (by rw [hab, cons_append]) hm (by rwa [append_cons])
      · rintro ⟨h0, h⟩ (_ | ⟨x, a⟩) ln' b hab hm ho
        · obtain ⟨rfl, rfl⟩ := List.cons.inj hab
          exact h0 hm (by rwa [append_nil] at ho)
        · obtain ⟨rfl, htail⟩ := List.cons.inj hab
          exact h a ln' b htail hm (by rwa [append_cons] at ho)
    rw [hsplit, ← hrest, Settled]
    cases hd : directive ln with
    | mid =>
      rw [opened_iff, closed_iff]
      exact and_congr_left' ⟨fun h _ => h, fun h => h rfl⟩
    | _ => exact (and_iff_right fun h => by cases h).symm

/-- **`_balance_cpp`** balances a block if and only if every `#else` and `#elif` in an open
conditional stands in one that has its `#endif`. -/
theorem balanceCpp_balances_iff (lines : List Line) :
    Balances lines ↔ ∀ pre ln post, lines = pre ++ ln :: post → directive ln = .mid →
      Opened bracket pre → Closed bracket post := by
  have hnested : Nested 0 (balanceCpp lines) ↔ Settled 0 lines := by
    rw [balanceCpp_eq, ← nested_kept, Nat.zero_min]
  have hsettled := settled_iff lines []
  refine Iff.trans ?_ hsettled
  constructor
  · exact fun h => hnested.1 h.nested
  · intro h
    have hout := hnested.2 h
    refine ⟨hout, ?_, ?_⟩
    · rw [balanceCpp_eq]
      exact drops_kept lines []
    · rw [balanceCpp_eq (balanceCpp lines)]
      exact (kept_of_nested hout).2

/-- `#if` and `#else` without an `#endif`: the opener is dropped, the `#else` stays. -/
theorem not_balances_cutElse : ¬Balances ["#if X".toList, "#else".toList] := by
  intro h
  have hout : balanceCpp ["#if X".toList, "#else".toList] = ["#else".toList] := by decide
  have hnested := h.nested
  rw [hout, Nested, show directive "#else".toList = .mid by decide] at hnested
  exact Nat.lt_irrefl 0 hnested.1

/-! ## A second time -/

/-- Of `n` open conditionals those that are closed behind are closed in the lines kept, and every
`#else` of these in an open conditional stands in one that is closed. -/
theorem settled_kept (lines : List Line) :
    ∀ n, pending bracket (kept n lines) = min n (pending bracket lines) ∧
    Settled (min n (pending bracket lines)) (kept n lines) := by
  induction lines with
  | nil => exact fun n => ⟨(Nat.min_zero n).symm, trivial⟩
  | cons ln lines ih =>
    intro n
    cases hd : directive ln with
    | opens =>
      obtain ⟨hpending, hrest⟩ := ih (n + 1)
      simp only [kept, pending, bracket, hd]
      split_ifs with hpos
      · simp only [pending, bracket, Settled, hd, hpending]
        rw [show min n (pending bracket lines - 1) + 1 =
          min (n + 1) (pending bracket lines) by omega]
        exact ⟨by omega, hrest⟩
      · rw [show min n (pending bracket lines - 1) = min (n + 1) (pending bracket lines) by omega]
        exact ⟨hpending, hrest⟩
    | closes =>
      obtain ⟨hpending, hrest⟩ := ih (n - 1)
      simp only [kept, pending, bracket, hd]
      split_ifs with hpos
      · simp only [pending, bracket, Settled, hd, hpending]
        rw [show min n (pending bracket lines + 1) - 1 =
          min (n - 1) (pending bracket lines) by omega]
        exact ⟨by omega, hrest⟩
      · rw [show min n (pending bracket lines + 1) = min (n - 1) (pending bracket lines) by omega]
        exact ⟨hpending, hrest⟩
    | mid =>
      obtain ⟨hpending, hrest⟩ := ih n
      simp only [kept, pending, bracket, hd]
      split_ifs with hpos
      · simp only [pending, bracket, Settled, hd, hpending]
        exact ⟨trivial, id, hrest⟩
      · exact ⟨hpending, hrest⟩
    | other =>
      simp only [kept, pending, bracket, Settled, hd]
      exact ih n

/-- **Only unmatched directives are dropped, and a second time balances what the first leaves**: of
a block that was balanced before, nothing is dropped from then on. -/
theorem balanceCpp_twice (lines : List Line) :
    DropsUnmatched [] lines (balanceCpp lines) ∧ Balances (balanceCpp lines) := by
  have hdrops : ∀ ls, DropsUnmatched [] ls (balanceCpp ls) := fun ls => by
    rw [balanceCpp_eq]
    exact drops_kept ls []
  have hnested : Nested 0 (balanceCpp (balanceCpp lines)) := by
    have hsettled := (settled_kept lines 0).2
    rw [Nat.zero_min, ← nested_kept, Nat.zero_min] at hsettled
    rwa [balanceCpp_eq lines, balanceCpp_eq]
  refine ⟨hdrops lines, hnested, hdrops _, ?_⟩
  rw [balanceCpp_eq (balanceCpp (balanceCpp lines))]
  exact (kept_of_nested hnested).2

end Preprocess
