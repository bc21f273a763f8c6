/-
# The pieces of an encoding

The lines of a source and of the encoded text are those of the pieces; the numbers of the
markers count up; a marker stands for each directive that begins outside the specification
part.
-/
import DaceFortran.AccMarkers.Markers

open List

namespace Preprocess.AccMarkers

/-! ## The lines of the pieces -/

theorem continuations_initial (line : Line) (rest : List Line) :
    continuations line rest <+: rest := by
  induction rest generalizing line with
  | nil => exact prefix_rfl
  | cons next rest ih =>
    rw [continuations]
    split
    · exact (prefix_cons_inj next).2 (ih next)
    · exact nil_prefix

/-- The pieces make up the source. -/
theorem encodeFrom_source (skip counter : ℕ) (lines : List Line) :
    (encodeFrom skip counter lines).flatMap Piece.source = lines.drop skip := by
  induction lines generalizing skip counter with
  | nil =>
    rw [drop_nil]
    cases skip with
    | zero => rfl
    | succ skip => rfl
  | cons line rest ih =>
    cases skip with
    | succ skip => exact ih skip counter
    | zero =>
      have hblock : line :: continuations line rest ++
        rest.drop (line :: continuations line rest).length.pred =
          line :: rest := by
        rw [cons_append]
        exact congrArg (line :: ·) (prefix_iff_eq_append.1 (continuations_initial line rest))
      rw [encodeFrom]
      split
      · split
        · rw [flatMap_cons, ih]
          exact hblock
        · rw [flatMap_cons, ih]
          exact hblock
      · rw [flatMap_cons, ih]
        rfl

/-! ## Numbers -/

theorem filterMap_cons_marker (n : ℕ) (block : List Line) (pieces : List Piece) :
    (Piece.marker n block :: pieces).filterMap Piece.entry = (n, block) ::
      pieces.filterMap Piece.entry := rfl

/-- The markers of a source are numbered upward from the counter. -/
theorem encodeFrom_numbers (skip counter : ℕ) (lines : List Line) :
    ((encodeFrom skip counter lines).filterMap Piece.entry).map Prod.fst =
      List.range' counter ((encodeFrom skip counter lines).filterMap Piece.entry).length := by
  induction lines generalizing skip counter with
  | nil =>
    cases skip with
    | zero => rfl
    | succ skip => rfl
  | cons line rest ih =>
    cases skip with
    | succ skip => exact ih skip counter
    | zero =>
      rw [encodeFrom]
      split
      · split
        · exact ih _ counter
        · rw [filterMap_cons_marker, map_cons, ih]
          exact List.range'_succ.symm
      · exact ih 0 counter

/-- The entries of all sources. -/
def entries (sources : List (Name × Text × List Piece)) : List (ℕ × List Line) :=
  sources.flatMap fun s => s.2.2.filterMap Piece.entry

theorem encodePieces_numbers (counter : ℕ) (srcs : List (Name × Text)) :
    (entries (encodePieces counter srcs)).map Prod.fst =
      List.range' counter (entries (encodePieces counter srcs)).length := by
  induction srcs generalizing counter with
  | nil => rfl
  | cons s rest ih =>
    obtain ⟨name, text⟩ := s
    show (List.filterMap Piece.entry (encodeFrom 0 counter (splitlines text)) ++
      entries (encodePieces _ rest)).map
      Prod.fst = _
    rw [map_append, encodeFrom_numbers, ih]
    show _ = List.range' counter
      (List.filterMap Piece.entry (encodeFrom 0 counter (splitlines text)) ++
      entries (encodePieces _ rest)).length
    rw [length_append]
    exact List.range'_append_1

/-- **No two directives have one number**, over all sources. -/
theorem numbers_nodup (counter : ℕ) (srcs : List (Name × Text)) :
    ((entries (encodePieces counter srcs)).map Prod.fst).Nodup := by
  rw [encodePieces_numbers]
  exact nodup_range'

theorem placesFrom_numbers (i : ℕ) (pieces : List Piece) :
    (placesFrom i pieces).map Prod.snd = (pieces.filterMap Piece.entry).map Prod.fst := by
  induction pieces generalizing i with
  | nil => rfl
  | cons p pieces ih =>
    cases p with
    | kept lines => exact ih (i + lines.length)
    | marker n block => exact congrArg (n :: ·) (ih (i + block.length))

/-! ## Where the markers are -/

/-- A directive begins at a position, the line before the first being one of a directive that
continues or not. -/
def BeginsFrom : Bool → List Line → ℕ → Prop
  | _, [], _ => False
  | continues, line :: _, 0 => isSentinel line ∧ continues = false
  | _, line :: rest, k + 1 => BeginsFrom (isSentinel line && endsInAmpersand line) rest k

theorem beginsFrom_iff (continues : Bool) (lines : List Line) (k : ℕ) :
    BeginsFrom continues lines k ↔ ∃ line, lines[k]? = some line ∧ isSentinel line ∧
      (k = 0 → continues = false) ∧
      ∀ before, 0 < k → lines[k - 1]? = some before →
        ¬ (isSentinel before ∧ endsInAmpersand before) := by
  induction lines generalizing continues k with
  | nil => simp [BeginsFrom]
  | cons line rest ih =>
    cases k with
    | zero => simp [BeginsFrom]
    | succ k =>
      rw [BeginsFrom, ih]
      simp only [List.getElem?_cons_succ, Nat.succ_ne_zero, false_implies,
        Nat.succ_pos, forall_const,
        Nat.add_sub_cancel, true_and]
      cases k with
      | zero => simp
      | succ k => simp

/-- How many lines of a directive that continues are to come. -/
def comingLines : List Line → ℕ
  | [] => 0
  | next :: rest => if isSentinel next then (continuations next rest).length + 1 else 0

theorem continuations_length (line : Line) (rest : List Line) :
    (continuations line rest).length = if endsInAmpersand line then comingLines rest else 0 := by
  cases rest with
  | nil =>
    simp [continuations, comingLines]
  | cons next rest =>
    rw [continuations, comingLines]
    cases endsInAmpersand line with
    | false => rfl
    | true =>
      cases isSentinel next with
      | false => rfl
      | true => rfl

/-- **The markers are put where directives begin**, but for those of the specification part. -/
theorem mem_placesFrom (continues : Bool) (skip counter base : ℕ) (lines : List Line)
    (hskip : skip = if continues then comingLines lines else 0) (i : ℕ) :
    (∃ n, (i, n) ∈ placesFrom base (encodeFrom skip counter lines)) ↔
      ∃ k, i + skip = base + k ∧ BeginsFrom continues lines k ∧ ∀ line, lines[k]? = some line →
        ¬ inSpecPart line := by
  induction lines generalizing continues skip counter base with
  | nil =>
    have hnone : encodeFrom skip counter [] = [] := by
      cases skip with
      | zero => rfl
      | succ skip => rfl
    rw [hnone]
    constructor
    · rintro ⟨n, hn⟩
      cases hn
    · rintro ⟨k, _, hk, _⟩
      exact hk.elim
  | cons line rest ih =>
    have hnext := continuations_length line rest
    cases skip with
    | succ skip =>
      -- a line inside of a directive
      have hin : continues = true ∧ isSentinel line = true ∧
          skip = (continuations line rest).length := by
        cases continues with
        | false => cases hskip
        | true =>
          rw [if_pos rfl, comingLines] at hskip
          split at hskip
          · next hline => exact ⟨rfl, hline, Nat.succ.inj hskip⟩
          · cases hskip
      obtain ⟨rfl, hline, rfl⟩ := hin
      rw [encodeFrom, ih (isSentinel line && endsInAmpersand line) _ counter base
        (by rw [hline, Bool.true_and, hnext])]
      constructor
      · rintro ⟨k, hk, hbegins, hspec⟩
        exact ⟨k + 1, by omega, hbegins, hspec⟩
      · rintro ⟨k, hk, hbegins, hspec⟩
        cases k with
        | zero => cases hbegins.2
        | succ k => exact ⟨k, by omega, hbegins, hspec⟩
    | zero =>
      rw [encodeFrom]
      split
      · next hline =>
        -- the first line of a directive
        have hcont : continues = false := by
          cases continues with
          | false => rfl
          | true =>
            rw [if_pos rfl, comingLines, if_pos hline] at hskip
            cases hskip
        have hrest := fun base counter => ih (isSentinel line && endsInAmpersand line)
          ((line :: continuations line rest).length - 1) counter base
          (by rw [hline, Bool.true_and, length_cons, Nat.add_sub_cancel, hnext])
        simp only [length_cons, Nat.add_sub_cancel] at hrest ⊢
        split
        · next hspec =>
          rw [placesFrom, length_cons, hrest]
          constructor
          · rintro ⟨k, hk, hbegins, hnot⟩
            exact ⟨k + 1, by omega, hbegins, hnot⟩
          · rintro ⟨k, hk, hbegins, hnot⟩
            cases k with
            | zero => exact absurd hspec (hnot line rfl)
            | succ k => exact ⟨k, by omega, hbegins, hnot⟩
        · next hspec =>
          simp only [placesFrom, length_cons, mem_cons, Prod.mk.injEq]
          constructor
          · rintro ⟨n, ⟨rfl, rfl⟩ | hn⟩
            · refine ⟨0, rfl, ⟨hline, hcont⟩, ?_⟩
              intro l hl
              rwa [← Option.some.inj hl]
            · obtain ⟨k, hk, hbegins, hnot⟩ := (hrest _ _).1 ⟨n, hn⟩
              exact ⟨k + 1, by omega, hbegins, hnot⟩
          · rintro ⟨k, hk, hbegins, hnot⟩
            cases k with
            | zero => exact ⟨counter, Or.inl ⟨by omega, rfl⟩⟩
            | succ k =>
              obtain ⟨n, hn⟩ := (hrest (base + ((continuations line rest).length + 1))
                (counter + 1)).2
                ⟨k, by omega, hbegins, hnot⟩
              exact ⟨n, Or.inr hn⟩
      · next hline =>
        have hno : (isSentinel line && endsInAmpersand line) = false := by
          rw [Bool.eq_false_iff.2 hline, Bool.false_and]
        rw [placesFrom, ih false 0 counter _ rfl]
        constructor
        · rintro ⟨k, hk, hbegins, hnot⟩
          refine ⟨k + 1, ?_, ?_, hnot⟩
          · rw [length_singleton] at hk
            omega
          · rw [BeginsFrom, hno]
            exact hbegins
        · rintro ⟨k, hk, hbegins, hnot⟩
          cases k with
          | zero => exact absurd hbegins.1 hline
          | succ k =>
            rw [BeginsFrom, hno] at hbegins
            refine ⟨k, ?_, hbegins, hnot⟩
            rw [length_singleton]
            omega

end Preprocess.AccMarkers
