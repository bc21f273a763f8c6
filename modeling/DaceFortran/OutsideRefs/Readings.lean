/-
# What a text says, through the steps of `_logical_lines`

Blanks at the ends, runs of blanks, case and the split at the semicolons change no reading
(`reading_statementsOf`); a line of the loop adds the glyphs of its body to those of what was read
before (`total_lineStep`).
-/
import DaceFortran.OutsideRefs.LogicalLines

open List

namespace OutsideRefs

/-! ## Characters -/

theorem toLower_cases (c : Char) :
    c.toLower = c ∨ (65 ≤ c.toNat ∧ c.toNat ≤ 90) ∧ c.toLower.toNat = c.toNat + 32 := by
  unfold Char.toLower
  split
  · rename_i h
    right
    have h1 : 65 ≤ c.val.toNat := h.1
    have h2 : c.val.toNat ≤ 90 := h.2
    refine ⟨⟨h1, h2⟩, ?_⟩
    show (c.val + 32).toNat = c.val.toNat + 32
    rw [UInt32.toNat_add]
    show (c.val.toNat + 32) % 2 ^ 32 = c.val.toNat + 32
    omega
  · left
    rfl

theorem isBlank_of_toNat (c : Char) (h : 33 ≤ c.toNat) : isBlank c = false := by
  simp only [isBlank, Char.isWhitespace, Bool.or_eq_false_iff, decide_eq_false_iff_not]
  refine ⟨⟨⟨?_, ?_⟩, ?_⟩, ?_⟩ <;> rintro rfl <;> revert h <;> decide

theorem isBlank_toLower (c : Char) : isBlank c.toLower = isBlank c := by
  obtain h | ⟨h1, h2⟩ := toLower_cases c
  · rw [h]
  · rw [isBlank_of_toNat c (by omega), isBlank_of_toNat c.toLower (by omega)]

theorem toLower_toLower (c : Char) : c.toLower.toLower = c.toLower := by
  obtain h | ⟨h1, h2⟩ := toLower_cases c
  · rw [h, h]
  · obtain h3 | ⟨h3, -⟩ := toLower_cases c.toLower
    · exact h3
    · omega

/-- No letter becomes one of the special characters. -/
theorem toLower_eq_iff (c d : Char) (hd : d.toNat < 65) : c.toLower = d ↔ c = d := by
  obtain h | ⟨h1, h2⟩ := toLower_cases c
  · rw [h]
  · constructor
    · rintro rfl
      omega
    · rintro rfl
      omega

variable {c : Char}

theorem not_isQuote_of_isBlank (h : isBlank c = true) : isQuote c = false := by
  cases hq : isQuote c with
  | false => rfl
  | true =>
    simp only [isQuote, Bool.or_eq_true, decide_eq_true_eq] at hq
    obtain rfl | rfl := hq <;> revert h <;> decide

theorem isBlank_of_isQuote (h : isQuote c = true) : isBlank c = false := by
  cases hb : isBlank c with
  | false => rfl
  | true => rw [not_isQuote_of_isBlank hb] at h; cases h

theorem ne_of_isQuote (h : isQuote c = true) : c ≠ '&' ∧ c ≠ '!' ∧ c ≠ ';' := by
  simp only [isQuote, Bool.or_eq_true, decide_eq_true_eq] at h
  obtain rfl | rfl := h <;> decide

/-! ## Blanks at the ends -/

@[simp] theorem lstrip_nil : lstrip [] = [] := rfl

theorem lstrip_blank (h : isBlank c = true) (t : List Char) : lstrip (c :: t) = lstrip t := by
  simp [lstrip, h]

theorem lstrip_nonblank (h : isBlank c = false) (t : List Char) :
    lstrip (c :: t) = c :: t := by
  simp [lstrip, h]

/-- What is left begins with a character that is no blank. -/
theorem isBlank_of_lstrip {t u : List Char} (h : lstrip t = c :: u) : isBlank c = false := by
  induction t with
  | nil => cases h
  | cons d t ih =>
    cases hd : isBlank d with
    | true => exact ih (by rwa [lstrip_blank hd] at h)
    | false =>
      rw [lstrip_nonblank hd] at h
      cases h
      exact hd

theorem lstrip_concat {q : Char} (hq : isBlank q = false) (t : List Char) :
    lstrip (t ++ [q]) = lstrip t ++ [q] := by
  induction t with
  | nil => exact lstrip_nonblank hq []
  | cons c t ih =>
    cases hc : isBlank c with
    | true => rw [cons_append, lstrip_blank hc, ih, lstrip_blank hc]
    | false => rw [cons_append, lstrip_nonblank hc, lstrip_nonblank hc, cons_append]

theorem rstrip_nonblank (h : isBlank c = false) (t : List Char) :
    rstrip (c :: t) = c :: rstrip t := by
  simp [rstrip, h]

theorem rstrip_rstrip (t : List Char) : rstrip (rstrip t) = rstrip t := by
  induction t with
  | nil => rfl
  | cons c t ih =>
    by_cases h : rstrip t = [] ∧ isBlank c = true
    · simp [rstrip, h]
    · rw [rstrip, if_neg h, rstrip, ih, if_neg h]

theorem rstrip_concat {q : Char} (hq : isBlank q = false) (t : List Char) :
    rstrip (t ++ [q]) = t ++ [q] := by
  induction t with
  | nil => exact rstrip_nonblank hq []
  | cons c t ih =>
    rw [cons_append, rstrip, ih, if_neg]
    rintro ⟨h, -⟩
    exact absurd h (by simp)

theorem lstrip_rstrip (t : List Char) : lstrip (rstrip t) = rstrip (lstrip t) := by
  induction t with
  | nil => rfl
  | cons c t ih =>
    cases hc : isBlank c with
    | false => rw [lstrip_nonblank hc, rstrip_nonblank hc, lstrip_nonblank hc]
    | true =>
      rw [lstrip_blank hc, ← ih]
      by_cases h : rstrip t = []
      · simp [rstrip, h, hc]
      · rw [rstrip, if_neg (fun h' => h h'.1), lstrip_blank hc]

variable {t : List Char} {raw : Line}

theorem head?_rstrip (hc : isBlank c = false) (h : t.head? = some c) :
    (rstrip t).head? = some c := by
  cases t with
  | nil => cases h
  | cons d t =>
    cases h
    rw [rstrip_nonblank hc]
    rfl

theorem head?_of_rstrip (h : (rstrip t).head? = some c) :
    t.head? = some c := by
  cases t with
  | nil => cases h
  | cons d t =>
    rw [rstrip] at h
    split at h
    · cases h
    · exact h

/-! ## Glyphs -/

variable (ctx : Ctx)

@[simp] theorem Ctx.blank_blank : ctx.blank.blank = ctx.blank := by
  cases ctx <;> rfl

theorem Ctx.mark_blank (h : isBlank c = true) (ctx : Ctx) : ctx.mark c = [] := by
  simp [Ctx.mark, h]

theorem Ctx.next_blank (h : isBlank c = true) (ctx : Ctx) : ctx.next c = ctx.blank := by
  simp [Ctx.next, h]

@[simp] theorem Ctx.mark_space : ctx.mark ' ' = [] := ctx.mark_blank rfl

@[simp] theorem Ctx.next_space : ctx.next ' ' = ctx.blank := ctx.next_blank rfl

@[simp] theorem Ctx.mark_semicolon : ctx.mark ';' = [] := by
  simp [Ctx.mark]

@[simp] theorem Ctx.next_semicolon : ctx.next ';' = .apart := by
  rw [Ctx.next, if_neg (by decide), if_pos rfl]

theorem Ctx.mark_char (h : isBlank c = false) (hc : c ≠ ';') (ctx : Ctx) :
    ctx.mark c = [⟨c.toLower, ctx.link c.toLower⟩] := by
  simp [Ctx.mark, h, hc]

theorem Ctx.next_char (h : isBlank c = false) (hc : c ≠ ';') (ctx : Ctx) :
    ctx.next c = .after c.toLower := by
  simp [Ctx.next, h, hc]

theorem Ctx.past_append (a b : List Char) : ctx.past (a ++ b) = (ctx.past a).past b :=
  foldl_append

@[simp] theorem Ctx.past_nil : ctx.past [] = ctx := rfl

theorem Ctx.past_cons (c : Char) (t : List Char) :
    ctx.past (c :: t) = (ctx.next c).past t := rfl

theorem glyphs_append (a b : List Char) :
    glyphs ctx (a ++ b) = glyphs ctx a ++ glyphs (ctx.past a) b := by
  induction a generalizing ctx with
  | nil => rfl
  | cons c a ih =>
    show ctx.mark c ++ glyphs (ctx.next c) (a ++ b) = _
    rw [ih, ← append_assoc]
    rfl

theorem glyphs_rstrip (t : List Char) : glyphs ctx (rstrip t) = glyphs ctx t := by
  induction t generalizing ctx with
  | nil => rfl
  | cons c t ih =>
    rw [rstrip]
    split
    · rename_i h
      show [] = ctx.mark c ++ glyphs (ctx.next c) t
      rw [ctx.mark_blank h.2, ← ih, h.1]
      rfl
    · show ctx.mark c ++ glyphs (ctx.next c) (rstrip t) = _
      rw [ih]
      rfl

theorem glyphs_lstrip {ctx : Ctx} (h : ctx.blank = ctx) (t : List Char) :
    glyphs ctx (lstrip t) = glyphs ctx t := by
  induction t with
  | nil => rfl
  | cons c t ih =>
    cases hc : isBlank c with
    | false => rw [lstrip_nonblank hc]
    | true =>
      rw [lstrip_blank hc, ih]
      show _ = ctx.mark c ++ glyphs (ctx.next c) t
      rw [ctx.mark_blank hc, ctx.next_blank hc, h]
      rfl

@[simp] theorem reading_strip (t : List Char) : reading (strip t) = reading t := by
  rw [strip, reading, glyphs_rstrip, glyphs_lstrip rfl, reading]

theorem glyphs_toLower (t : List Char) :
    glyphs ctx (t.map Char.toLower) = glyphs ctx t := by
  induction t generalizing ctx with
  | nil => rfl
  | cons c t ih =>
    show ctx.mark c.toLower ++ glyphs (ctx.next c.toLower) (t.map Char.toLower)
      = ctx.mark c ++ glyphs (ctx.next c) t
    have hsemi := toLower_eq_iff c ';' (by decide)
    rw [ih]
    simp only [Ctx.mark, Ctx.next, isBlank_toLower, toLower_toLower, hsemi]

theorem glyphs_collapse (t : List Char) : glyphs ctx (collapse t) = glyphs ctx t := by
  induction t generalizing ctx with
  | nil => rfl
  | cons c t ih =>
    rw [collapse]
    split
    · rename_i hc
      show _ = ctx.mark c ++ glyphs (ctx.next c) t
      rw [ctx.mark_blank hc, ctx.next_blank hc, ← ih]
      split
      · -- the run of blanks goes on: one blank after another precedes nothing new
        rename_i hhead
        obtain ⟨w, hw⟩ : ∃ w, collapse t = ' ' :: w := List.head?_eq_some_iff.1 hhead
        rw [hw]
        show ctx.mark ' ' ++ glyphs (ctx.next ' ') w = ctx.blank.mark ' ' ++
          glyphs (ctx.blank.next ' ') w
        simp
      · show ctx.mark ' ' ++ glyphs (ctx.next ' ') (collapse t) = _
        simp
    · show ctx.mark c ++ glyphs (ctx.next c) (collapse t) = ctx.mark c ++ glyphs (ctx.next c) t
      rw [ih]

@[simp] theorem reading_normal (t : List Char) :
    reading (collapse (t.map Char.toLower)) = reading t := by
  rw [reading, glyphs_collapse, glyphs_toLower, reading]

/-! ## The parts of a line -/

theorem glyphs_splitSemicolons (t : List Char) :
    glyphs ctx t = glyphs ctx ((splitSemicolons t).headD [])
      ++ (splitSemicolons t).tail.flatMap reading := by
  induction t generalizing ctx with
  | nil => rfl
  | cons c t ih =>
    show ctx.mark c ++ glyphs (ctx.next c) t = _
    rw [splitSemicolons]
    split
    · rename_i hc
      rw [hc, ctx.mark_semicolon, ctx.next_semicolon, ih]
      cases hs : splitSemicolons t with
      | nil => rfl
      | cons p ps => rfl
    · rw [ih, ← append_assoc]
      rfl

theorem splitSemicolons_ne_nil (t : List Char) : splitSemicolons t ≠ [] := by
  cases t with
  | nil => simp [splitSemicolons]
  | cons c t =>
    rw [splitSemicolons]
    split <;> simp

theorem semicolon_notMem_of_mem_split {p t : List Char} (h : p ∈ splitSemicolons t) : ';' ∉ p := by
  induction t generalizing p with
  | nil =>
    obtain rfl := mem_singleton.1 h
    simp
  | cons c t ih =>
    rw [splitSemicolons] at h
    split at h
    · obtain rfl | h := mem_cons.1 h
      · simp
      · exact ih h
    · rename_i hc
      obtain ⟨q, qs, hq⟩ := exists_cons_of_ne_nil (splitSemicolons_ne_nil t)
      rw [hq] at h ih
      obtain rfl | h := mem_cons.1 h
      · have hq' : ';' ∉ q := ih mem_cons_self
        simp only [headD_cons, mem_cons, not_or]
        exact ⟨fun h => hc h.symm, hq'⟩
      · exact ih (mem_cons_of_mem _ h)

/-- The statements of a complete line say what its text says. -/
theorem reading_statementsOf (full : List Char) (start : ℕ) (guarded : Bool) :
    (statementsOf full start guarded).flatMap (fun s => reading s.text) = reading full := by
  have hparts : ∀ ps : List (List Char),
      ((ps.map strip).filterMap fun part =>
        if part = [] then none
        else some (⟨collapse (part.map Char.toLower), start, guarded⟩ : Statement)).flatMap
          (fun s => reading s.text) = ps.flatMap reading := by
    intro ps
    induction ps with
    | nil => rfl
    | cons p ps ih =>
      rw [map_cons, filterMap_cons, flatMap_cons, ← ih, ← reading_strip p]
      by_cases hp : strip p = []
      · rw [if_pos hp, hp]
        rfl
      · rw [if_neg hp]
        show reading (collapse ((strip p).map Char.toLower)) ++ _ = _
        rw [reading_normal]
        rfl
  rw [statementsOf, hparts, reading, glyphs_splitSemicolons .apart full]
  obtain ⟨p, ps, hp⟩ := exists_cons_of_ne_nil (splitSemicolons_ne_nil full)
  rw [hp]
  rfl

/-! ## Where a statement begins -/

/-- A statement's reading: its first glyph is apart, no other is. -/
def IsStatement (r : List Glyph) : Prop :=
  ∃ g gs, r = g :: gs ∧ g.link = .apart ∧ ∀ h ∈ gs, h.link ≠ .apart

theorem link_ne_apart {ctx : Ctx} (h : ctx ≠ .apart) (ht : ';' ∉ t) :
    ∀ g ∈ glyphs ctx t, g.link ≠ .apart := by
  induction t generalizing ctx with
  | nil => simp [glyphs]
  | cons c t ih =>
    obtain ⟨hc, ht⟩ := ne_and_not_mem_of_not_mem_cons ht
    have hnext : ctx.next c ≠ .apart := by
      rw [Ctx.next]
      split
      · cases ctx
        · exact absurd rfl h
        all_goals simp [Ctx.blank]
      · rw [if_neg fun h' => hc h'.symm]
        simp
    intro g hg
    obtain hg | hg := mem_append.1 (show g ∈ ctx.mark c ++ glyphs (ctx.next c) t from hg)
    · rw [Ctx.mark] at hg
      split at hg
      · cases hg
      · obtain rfl := mem_singleton.1 hg
        show ctx.link c.toLower ≠ .apart
        cases ctx with
        | apart => exact absurd rfl h
        | spaced => simp [Ctx.link, Ctx.glues]
        | after d =>
          rw [Ctx.link]
          · split <;> simp
          · simp
    · exact ih hnext ht g hg

theorem isStatement_of_mem {full : List Char} {start : ℕ} {guarded : Bool} {s : Statement}
    (h : s ∈ statementsOf full start guarded) : IsStatement (reading s.text) := by
  obtain ⟨part, hpart, hs⟩ := mem_filterMap.1 h
  obtain ⟨p, hp, rfl⟩ := mem_map.1 hpart
  split at hs
  · cases hs
  · rename_i hne
    cases hs
    rw [reading_normal, reading_strip, reading, ← glyphs_lstrip rfl]
    have hnone := semicolon_notMem_of_mem_split hp
    cases hl : lstrip p with
    | nil =>
      rw [strip, hl] at hne
      exact absurd rfl hne
    | cons c t =>
      have hc := isBlank_of_lstrip hl
      have hsub : ∀ d ∈ c :: t, d ∈ p := by
        rw [← hl]
        exact (dropWhile_sublist _).subset
      have hsemi : c ≠ ';' := fun h' => hnone (h' ▸ hsub c mem_cons_self)
      refine ⟨⟨c.toLower, .apart⟩, glyphs (.after c.toLower) t, ?_, rfl, ?_⟩
      · show Ctx.mark .apart c ++ glyphs (Ctx.next .apart c) t = _
        rw [Ctx.mark_char hc hsemi, Ctx.next_char hc hsemi]
        rfl
      · exact link_ne_apart (by simp) fun h' => hnone (hsub _ (mem_cons_of_mem _ h'))

/-- Statements are told apart by their first glyphs. -/
theorem statementsIn_flatten {rs : List (List Glyph)} (h : ∀ r ∈ rs, IsStatement r) :
    statementsIn rs.flatten = rs := by
  refine splitBy_flatten ?_ ?_ ?_
  · intro hnil
    obtain ⟨g, gs, hg, -⟩ := h [] hnil
    cases hg
  · intro r hr
    obtain ⟨g, gs, rfl, -, hgs⟩ := h r hr
    refine isChain_cons.2 ⟨?_, ?_⟩
    · intro b hb
      simpa using hgs b (mem_of_mem_head? hb)
    · clear hr
      induction gs with
      | nil => exact isChain_nil
      | cons a gs ih =>
        refine isChain_cons.2 ⟨?_, ih fun b hb => hgs b (mem_cons_of_mem _ hb)⟩
        intro b hb
        simpa using hgs b (mem_cons_of_mem _ (mem_of_mem_head? hb))
  · induction rs with
    | nil => exact isChain_nil
    | cons r rs ih =>
      refine isChain_cons.2 ⟨?_, ih fun b hb => h b (mem_cons_of_mem _ hb)⟩
      intro b hb
      obtain ⟨g, gs, rfl, -⟩ := h r mem_cons_self
      obtain ⟨g', gs', rfl, hg', -⟩ := h b (mem_cons_of_mem _ (mem_of_mem_head? hb))
      refine ⟨cons_ne_nil g gs, cons_ne_nil g' gs', ?_⟩
      show decide (g'.link ≠ .apart) = false
      rw [hg']
      rfl

/-! ## The loop -/

/-- What was read so far, the unfinished statement included. -/
def total (st : State) : List Glyph :=
  st.out.flatMap (fun s => reading s.text) ++ reading st.pending

theorem untrail_of_not (h : t.getLast? ≠ some '&') : untrail t = t := if_neg h

/-- A line adds the glyphs of its body. -/
theorem total_lineStep (h : isDirective raw = false) (st : State) (number : ℕ) :
    total (lineStep st number raw)
      = total st ++ glyphs (Ctx.past .apart st.pending) (untrail (bodyOf st.pending raw)) := by
  rw [lineStep, h, if_neg (by simp), untrail]
  by_cases htrail : (bodyOf st.pending raw).getLast? = some '&'
  · simp only [if_pos htrail, total]
    rw [append_assoc, append_assoc, reading, glyphs_append, glyphs_append]
    simp [reading, glyphs]
  · simp only [if_neg htrail, total]
    rw [flatMap_append, reading_statementsOf, reading_strip, reading, glyphs_append,
      append_assoc, append_assoc]
    simp [reading, glyphs]

theorem pending_lineStep (h : isDirective raw = false) (st : State) (number : ℕ) :
    (lineStep st number raw).pending
      = if (bodyOf st.pending raw).getLast? = some '&'
        then st.pending ++ (bodyOf st.pending raw).dropLast ++ [' '] else [] := by
  rw [lineStep, h, if_neg (by simp)]
  by_cases htrail : (bodyOf st.pending raw).getLast? = some '&'
  · simp only [if_pos htrail]
  · simp only [if_neg htrail]

theorem lineStep_directive (h : isDirective raw = true) (st : State) (number : ℕ) :
    total (lineStep st number raw) = total st ∧ (lineStep st number raw).pending = st.pending := by
  rw [lineStep, if_pos h]
  exact ⟨rfl, rfl⟩

theorem isStatement_lineStep {st : State} (h : ∀ s ∈ st.out, IsStatement (reading s.text))
    (number : ℕ) (raw : Line) :
    ∀ s ∈ (lineStep st number raw).out, IsStatement (reading s.text) := by
  rw [lineStep]
  split
  · exact h
  · dsimp only
    split
    · exact h
    · intro s hs
      obtain hs | hs := mem_append.1 hs
      · exact h s hs
      · exact isStatement_of_mem hs

theorem isStatement_linesFrom {st : State} (h : ∀ s ∈ st.out, IsStatement (reading s.text))
    (number : ℕ) (lines : List Line) :
    ∀ s ∈ (linesFrom number st lines).out, IsStatement (reading s.text) := by
  induction lines generalizing st number with
  | nil => exact h
  | cons raw lines ih => exact ih (isStatement_lineStep h number raw) (number + 1)

/-- The statements returned are the source's exactly when they say what its text says. -/
theorem recovers_iff_flatMap (lines : List Line) :
    Recovers lines ↔
      (logicalLines lines).flatMap (fun s => reading s.text) = fortranText lines := by
  have hflat : (logicalLines lines).flatMap (fun s => reading s.text)
      = ((logicalLines lines).map fun s => reading s.text).flatten := flatMap_def
  rw [Recovers, hflat]
  constructor
  · intro h
    rw [h]
    exact flatten_splitBy _ _
  · intro h
    rw [← h]
    refine (statementsIn_flatten ?_).symm
    intro r hr
    obtain ⟨s, hs, rfl⟩ := mem_map.1 hr
    exact isStatement_linesFrom (by simp [initial]) 1 lines s hs

end OutsideRefs
