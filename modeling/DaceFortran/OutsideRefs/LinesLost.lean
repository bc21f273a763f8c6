/-
# When `_logical_lines` recovers the statements

At the first line that is not read as it is meant the code leaves the free source form for good
(`Lost`): a character is linked otherwise, an `&` is read as a character, or a literal is closed
that the source goes on with.  So the condition on the lines is what it takes (`recovers_iff`).
-/
import DaceFortran.OutsideRefs.LinesFollow

open List

namespace OutsideRefs

/-! ## Where the code leaves the form -/

/-- Two texts with different characters at one place. -/
def Differ (a b : List Glyph) : Prop :=
  ∃ (i : ℕ) (x y : Glyph), a[i]? = some x ∧ b[i]? = some y ∧ x ≠ y

theorem Differ.append {a b : List Glyph} (h : Differ a b) (c d : List Glyph) :
    Differ (a ++ c) (b ++ d) := by
  obtain ⟨i, x, y, hx, hy, hne⟩ := h
  refine ⟨i, x, y, ?_, ?_, hne⟩
  · rw [List.getElem?_append_left (List.getElem?_eq_some_iff.1 hx).1, hx]
  · rw [List.getElem?_append_left (List.getElem?_eq_some_iff.1 hy).1, hy]

theorem differ_of_heads (a : List Glyph) {c d : List Glyph} {x y : Glyph} (hc : c.head? = some x)
    (hd : d.head? = some y) (hne : x ≠ y) : Differ (a ++ c) (a ++ d) := by
  rw [List.head?_eq_getElem?] at hc hd
  refine ⟨a.length, x, y, ?_, ?_, hne⟩
  · rw [List.getElem?_append_right le_rfl, Nat.sub_self, hc]
  · rw [List.getElem?_append_right le_rfl, Nat.sub_self, hd]

/-- The code has gone wrong: it has read something else, or has taken an `&` for a character, or
has closed a literal the source goes on with. -/
inductive Lost (f : Form) (st : State) (acc : List Glyph) : Prop
  | differ (h : Differ (total st) acc)
  | stray (h : ∃ g ∈ total st, g.char = '&')
  | literal (hopen : f.openLit ≠ none) (hpend : st.pending = [])
      (h : ∃ g, total st = acc ++ [g])

variable {c d : Char}

/-- A character opens the text, neither blank nor the end of a statement. -/
theorem head?_glyphs {t : List Char} (h : t.head? = some c) (hb : isBlank c = false)
    (hsemi : c ≠ ';') (ctx : Ctx) :
    (glyphs ctx t).head? = some ⟨c.toLower, ctx.link c.toLower⟩ := by
  cases t with
  | nil => cases h
  | cons d t =>
    cases h
    show (ctx.mark c ++ glyphs (ctx.next c) t).head? = _
    rw [ctx.mark_char hb hsemi]
    rfl

variable {raw : Line} {st : State} {acc : List Glyph} {f : Form}

/-- A leading `&` the code does not take for a continuation. -/
theorem stray_lineStep (hdir : isDirective raw = false)
    (hpend : st.pending = []) (hamp : (lstrip raw).head? = some '&')
    (halone : loneAmpersand raw = false) (number : ℕ) :
    ∃ g ∈ total (lineStep st number raw), g.char = '&' := by
  obtain ⟨rest, hrest⟩ : ∃ rest, lstrip raw = '&' :: rest := List.head?_eq_some_iff.1 hamp
  have hcomment : isCommentLine rest = false := by simpa [loneAmpersand, hrest] using halone
  have hpart : part (lstrip raw) = '&' :: part rest := by
    rw [hrest, part, scan_none_char rfl (by decide), rstrip_nonblank rfl]
    rfl
  -- something follows, so that the `&` does not end the line
  have hne : part rest ≠ [] := by
    intro hnil
    have hr : rstrip (scan none rest).1 = [] := (append_eq_nil_iff.1 hnil).1
    cases hl : lstrip rest with
    | nil => simp [isCommentLine, hl] at hcomment
    | cons c t =>
      have hbang : c ≠ '!' := by
        rintro rfl
        simp [isCommentLine, hl] at hcomment
      have hhead := head?_part (t := lstrip rest) (by rw [hl]; rfl) (isBlank_of_lstrip hl) hbang
      have hempty : rstrip (lstrip (scan none rest).1) = [] := by rw [← lstrip_rstrip, hr]; rfl
      rw [(scan_lstrip rest).1] at hempty
      rw [part, hempty, ← (scan_lstrip rest).2, (append_eq_nil_iff.1 hnil).2] at hhead
      cases hhead
  have hhead : (untrail (part (lstrip raw))).head? = some '&' := by
    rw [hpart]
    unfold untrail
    split
    · obtain ⟨d, u, hu⟩ := exists_cons_of_ne_nil hne
      rw [hu]
      rfl
    · rfl
  rw [total_lineStep hdir, bodyOf_plain (.inl hpend)]
  have hglyph := head?_glyphs hhead rfl (by decide) (Ctx.past .apart st.pending)
  exact ⟨_, mem_append_right _ (mem_of_mem_head? hglyph), rfl⟩

theorem Lost.step (h : Lost f st acc)
    (hform : isCode raw = true → f.openLit ≠ none → (lstrip raw).head? = some '&')
    (hbang : isCode raw = true → f.openLit ≠ none → loneAmpersand raw = false) (number : ℕ) :
    Lost (formLine f raw).2 (lineStep st number raw) (acc ++ (formLine f raw).1) := by
  have hgrows : ∃ c, total (lineStep st number raw) = total st ++ c := by
    cases hdir : isDirective raw with
    | true => exact ⟨[], (lineStep_directive hdir st number).1.trans (append_nil _).symm⟩
    | false => exact ⟨_, total_lineStep hdir st number⟩
  cases h with
  | differ h =>
    obtain ⟨c, hc⟩ := hgrows
    exact .differ (hc ▸ h.append c _)
  | stray h =>
    obtain ⟨c, hc⟩ := hgrows
    obtain ⟨g, hg, hamp⟩ := h
    exact .stray ⟨g, hc ▸ mem_append_left c hg, hamp⟩
  | literal hopen hpend h =>
    cases hdir : isDirective raw with
    | true =>
      obtain ⟨htotal, hpend'⟩ := lineStep_directive hdir st number
      rw [show formLine f raw = ([], f) by rw [formLine, if_pos hdir], append_nil]
      exact .literal hopen (hpend'.trans hpend) (htotal ▸ h)
    | false =>
      cases hcomment : isCommentLine raw with
      | true =>
        obtain ⟨htotal, hpend'⟩ := comment_lineStep hdir hcomment st number
        rw [show formLine f raw = ([], { f with interrupted := f.continued }) by
          rw [formLine, if_neg (by simp [hdir]), if_pos hcomment], append_nil]
        exact .literal hopen hpend' (htotal ▸ h)
      | false =>
        have hcode : isCode raw = true := by simp [isCode, hdir, hcomment]
        exact .stray (stray_lineStep hdir hpend (hform hcode hopen) (hbang hcode hopen) number)

/-- What the form reads of a line of code. -/
theorem formLine_chunk (hcode : isCode raw = true)
    (hopen : f.openLit = none) (hc : (resumeText f raw).head? = some c)
    (hb : isBlank c = false) (hsemi : c ≠ ';') (hbang : c ≠ '!') (hamp : c ≠ '&') :
    (formLine f raw).1.head? = some ⟨c.toLower, (resumeCtx f raw).link c.toLower⟩ := by
  cases hq : (scan none (resumeText f raw)).2 with
  | none =>
    rw [(formLine_closed hcode hopen hq).1]
    exact head?_glyphs (head?_untrail (head?_part hc hb hbang) hamp) hb hsemi _
  | some q =>
    simp only [isCode, Bool.and_eq_true, Bool.not_eq_true'] at hcode
    rw [formLine, if_neg (by simp [hcode.1]), if_neg (by simp [hcode.2]), hopen]
    simp only [hq]
    exact head?_glyphs (head?_scan hc hbang) hb hsemi _

/-- No token goes on with a blank, a semicolon, an exclamation mark or an `&`. -/
theorem joins_special (c : Char) (h : d ∈ [' ', '\t', '\r', '\n', ';', '!', '&']) :
    joins c d = false := by
  have hspecial : ∀ e ∈ [' ', '\t', '\r', '\n', ';', '!', '&'],
      isWord e = false ∧ isQuote e = false ∧ e ∉ pairs.map Prod.snd := by
    intro e he
    simp only [mem_cons, not_mem_nil, or_false] at he
    obtain rfl | rfl | rfl | rfl | rfl | rfl | rfl := he <;> decide
  obtain ⟨hword, hquote, hpair⟩ := hspecial d h
  have hcontains : pairs.contains (c, d) = false := by
    rw [contains_eq_mem, decide_eq_false_iff_not]
    intro hmem
    exact hpair (mem_map.2 ⟨(c, d), hmem, rfl⟩)
  have hsame : (isQuote c && decide (c = d)) = false := by
    by_cases hc : c = d
    · rw [hc, hquote]
      rfl
    · simp [hc]
  rw [joins, hword, hcontains, hsame, Bool.and_false]
  rfl

/-- The character a token goes on with. -/
theorem of_glues {ctx : Ctx} (h : ctx.glues d.toLower = true) :
    isBlank d = false ∧ d ≠ ';' ∧ d ≠ '!' ∧ d ≠ '&' := by
  have hnot : d.toLower ∉ [' ', '\t', '\r', '\n', ';', '!', '&'] := by
    intro hmem
    cases ctx with
    | apart => cases h
    | spaced => cases h
    | after c => simp [Ctx.glues, joins_special c hmem] at h
  refine ⟨?_, ?_, ?_, ?_⟩
  · rw [← isBlank_toLower]
    cases hb : isBlank d.toLower with
    | false => rfl
    | true =>
      refine absurd ?_ hnot
      simp only [isBlank, Char.isWhitespace, Bool.or_eq_true, decide_eq_true_eq] at hb
      simp only [mem_cons]
      tauto
  all_goals
    rintro rfl
    revert hnot
    decide

theorem of_isCode (h : isCode raw = true) :
    isDirective raw = false ∧ isCommentLine raw = false := by
  simpa only [isCode, Bool.and_eq_true, Bool.not_eq_true'] using h

/-- Where the first characters are linked differently, the texts differ for good. -/
theorem Aligned.lost_link (h : Aligned f st acc)
    (hcode : isCode raw = true) (hnores : f.interrupted = true → resumes f raw = false)
    (hc : (resumeText f raw).head? = some c) (hb : isBlank c = false) (hsemi : c ≠ ';')
    (hbang : c ≠ '!') (hamp : c ≠ '&')
    (hlink : (Ctx.past .apart st.pending).link c.toLower ≠ (resumeCtx f raw).link c.toLower)
    (number : ℕ) :
    Lost (formLine f raw).2 (lineStep st number raw) (acc ++ (formLine f raw).1) := by
  refine .differ ?_
  rw [total_lineStep (of_isCode hcode).1, h.bodyOf hnores, h.read]
  refine differ_of_heads acc
    (head?_glyphs (head?_untrail (head?_part hc hb hbang) hamp) hb hsemi _)
    (formLine_chunk hcode h.openLit hc hb hsemi hbang hamp) ?_
  intro heq
  exact hlink (Glyph.mk.inj heq).2

/-- The code puts a blank into a token. -/
theorem Aligned.lost_token (h : Aligned f st acc)
    (hcode : isCode raw = true)
    (hnores : f.interrupted = true → resumes f raw = false) (hres : resumes f raw = true)
    (hglue : f.ctx.gluesHead (resumeText f raw) = true) (number : ℕ) :
    Lost (formLine f raw).2 (lineStep st number raw) (acc ++ (formLine f raw).1) := by
  have hcont : f.continued = true := by
    cases hcont : f.continued with
    | true => rfl
    | false => simp [resumes, hcont] at hres
  have hint : f.interrupted = false := by
    cases hint : f.interrupted with
    | false => rfl
    | true => rw [hnores hint] at hres; cases hres
  cases hhead : (resumeText f raw).head? with
  | none => simp [Ctx.gluesHead, hhead] at hglue
  | some d =>
    have hd : f.ctx.glues d.toLower = true := by simpa [Ctx.gluesHead, hhead] using hglue
    obtain ⟨hb, hsemi, hbang, hamp⟩ := of_glues hd
    refine h.lost_link hcode hnores hhead hb hsemi hbang hamp ?_ number
    rw [(h.joined hcont hint).2, resumeCtx, if_pos hres]
    cases hctx : f.ctx with
    | apart => rw [hctx] at hd; cases hd
    | spaced => rw [hctx] at hd; cases hd
    | after c =>
      rw [hctx] at hd
      show Link.spaced ≠ if (Ctx.after c).glues d.toLower then Link.glued else Link.spaced
      rw [hd]
      simp

/-- The code begins a statement where the source goes on with one. -/
theorem Aligned.lost_cut (h : Aligned f st acc)
    (hcode : isCode raw = true) (hnores : f.interrupted = true → resumes f raw = false)
    (hint : f.interrupted = true)
    (hnot : ¬ (f.ctx.blank = .apart ∨ (lstrip raw).head? = some ';')) (number : ℕ) :
    Lost (formLine f raw).2 (lineStep st number raw) (acc ++ (formLine f raw).1) := by
  have hres := hnores hint
  have hcomment := (of_isCode hcode).2
  have hcont : f.continued = true := by
    cases hcont : f.continued with
    | true => rfl
    | false => rw [(h.plain hcont).2] at hint; cases hint
  have htext : resumeText f raw = lstrip raw := by rw [resumeText, if_neg (by simp [hres])]
  cases hl : lstrip raw with
  | nil => simp [isCommentLine, hl] at hcomment
  | cons d w =>
    have hbang : d ≠ '!' := by
      rintro rfl
      simp [isCommentLine, hl] at hcomment
    have hamp : d ≠ '&' := by
      rintro rfl
      simp [resumes, hl, hcont] at hres
    have hsemi : d ≠ ';' := by
      rintro rfl
      exact hnot (.inr (by rw [hl]; rfl))
    refine h.lost_link hcode hnores (by rw [htext, hl]; rfl) (isBlank_of_lstrip hl) hsemi hbang hamp
      ?_ number
    rw [h.fresh (.inr hint), resumeCtx, if_neg (by simp [hres])]
    cases hctx : f.ctx.blank with
    | apart => exact absurd (.inl hctx) hnot
    | spaced => simp [Ctx.link, Ctx.glues]
    | after c =>
      have := f.ctx.blank_blank
      rw [hctx] at this
      cases this

/-- The code closes a literal the source goes on with. -/
theorem Aligned.lost_literal (h : Aligned f st acc)
    (hcode : isCode raw = true)
    (huncut : f.interrupted = true →
      resumes f raw = false ∧ (f.ctx.blank = .apart ∨ (lstrip raw).head? = some ';'))
    (hwhole : resumes f raw = true → f.ctx.gluesHead (resumeText f raw) = false) {q : Char}
    (hq : (scan none (resumeText f raw)).2 = some q) (number : ℕ) :
    Lost (formLine f raw).2 (lineStep st number raw) (acc ++ (formLine f raw).1) := by
  obtain ⟨hdir, hcomment⟩ := of_isCode hcode
  have hquote := isQuote_of_scan (by simp) (resumeText f raw) q hq
  have hpart : part (resumeText f raw) = rstrip (scan none (resumeText f raw)).1 ++ [q] := by
    rw [part, hq]
    rfl
  have hlast : (part (resumeText f raw)).getLast? ≠ some '&' := by
    rw [hpart, List.getLast?_append]
    simpa using (ne_of_isQuote hquote).1
  have hbody := h.bodyOf fun hint => (huncut hint).1
  have hpend := pending_lineStep hdir st number
  rw [hbody, if_neg hlast] at hpend
  have htotal := total_lineStep hdir st number
  rw [hbody, h.read, untrail_of_not hlast, hpart, glyphs_append, glyphs_rstrip,
    (h.same huncut hwhole (opens_scan _)).glyphs] at htotal
  have hform : formLine f raw = (glyphs (resumeCtx f raw) (scan none (resumeText f raw)).1,
      ⟨some q, true, false, (resumeCtx f raw).past (scan none (resumeText f raw)).1⟩) := by
    rw [formLine, if_neg (by simp [hdir]), if_neg (by simp [hcomment]), h.openLit]
    simp only [hq]
  have hglyph : ∀ ctx : Ctx, glyphs ctx [q] = [⟨q.toLower, ctx.link q.toLower⟩] := by
    intro ctx
    show ctx.mark q ++ [] = _
    rw [ctx.mark_char (isBlank_of_isQuote hquote) (ne_of_isQuote hquote).2.2]
    rfl
  rw [hform]
  refine .literal (by simp) hpend ?_
  rw [htotal, ← append_assoc, hglyph]
  exact ⟨_, rfl⟩

/-- A line of code that is not read as it is meant. -/
theorem Aligned.lost (h : Aligned f st acc)
    (hcode : isCode raw = true) (halone : loneAmpersand raw = false) (hno : ¬ KeepsLine f raw)
    (number : ℕ) :
    Lost (formLine f raw).2 (lineStep st number raw) (acc ++ (formLine f raw).1) := by
  by_cases hcut : f.interrupted = true ∧ resumes f raw = true
  · -- the statement was cut, and the `&` that continues it is read as a character
    have hres := hcut.2
    simp only [resumes, Bool.and_eq_true, decide_eq_true_eq] at hres
    exact .stray (stray_lineStep (of_isCode hcode).1 (h.fresh (.inr hcut.1)) hres.2 halone number)
  have hnores : f.interrupted = true → resumes f raw = false := by
    intro hint
    cases hres : resumes f raw with
    | false => rfl
    | true => exact absurd ⟨hint, hres⟩ hcut
  by_cases htoken : resumes f raw = true ∧ f.ctx.gluesHead (resumeText f raw) = true
  · exact h.lost_token hcode hnores htoken.1 htoken.2 number
  by_cases hapart : f.interrupted = true ∧ ¬ (f.ctx.blank = .apart ∨ (lstrip raw).head? = some ';')
  · exact h.lost_cut hcode hnores hapart.1 hapart.2 number
  have huncut : f.interrupted = true →
      resumes f raw = false ∧ (f.ctx.blank = .apart ∨ (lstrip raw).head? = some ';') := by
    intro hint
    refine ⟨hnores hint, ?_⟩
    by_contra hnot
    exact hapart ⟨hint, hnot⟩
  have hwhole : resumes f raw = true → f.ctx.gluesHead (resumeText f raw) = false := by
    intro hres
    cases hglue : f.ctx.gluesHead (resumeText f raw) with
    | false => rfl
    | true => exact absurd ⟨hres, hglue⟩ htoken
  -- nothing but the literal is left
  cases hq : (scan none (resumeText f raw)).2 with
  | none => exact absurd ⟨by rw [h.openLit]; exact hq, huncut, hwhole⟩ hno
  | some q => exact h.lost_literal hcode huncut hwhole hq number

theorem Lost.lines (h : Lost f st acc) {lines : List Line}
    (hform : WellFormedFrom f lines) (hbang : BangFreeFrom f lines) (number : ℕ) :
    Lost (formFrom f lines).2 (linesFrom number st lines) (acc ++ (formFrom f lines).1) := by
  induction lines generalizing f st acc number with
  | nil => exact (append_nil acc).symm ▸ h
  | cons raw lines ih =>
    have hstep := h.step (fun hcode => (hform.1 hcode).1) hbang.1 number
    have := ih hstep hform.2 hbang.2 (number + 1)
    rwa [append_assoc] at this

/-- The first line that is not read as it is meant decides. -/
theorem Aligned.lost_lines (h : Aligned f st acc)
    {lines : List Line} (hform : WellFormedFrom f lines) (hbang : BangFreeFrom f lines)
    (hno : ¬ KeepsFrom f lines) (number : ℕ) :
    Lost (formFrom f lines).2 (linesFrom number st lines) (acc ++ (formFrom f lines).1) := by
  induction lines generalizing f st acc number with
  | nil => exact absurd trivial hno
  | cons raw lines ih =>
    by_cases hkeep : isCode raw = true → KeepsLine f raw
    · have := ih (h.step hkeep number) hform.2 hbang.2 (fun h' => hno ⟨hkeep, h'⟩) (number + 1)
      rwa [append_assoc] at this
    · rw [Classical.not_imp] at hkeep
      obtain ⟨hcode, hkeep⟩ := hkeep
      have hlost := h.lost hcode ((hform.1 hcode).2 h.openLit) hkeep number
      have := hlost.lines hform.2 hbang.2 (number + 1)
      rwa [append_assoc] at this

theorem Lost.total_ne (h : Lost f st acc)
    (hamp : ∀ g ∈ acc, g.char ≠ '&') : total st ≠ acc := by
  intro heq
  cases h with
  | differ h =>
    obtain ⟨i, x, y, hx, hy, hne⟩ := h
    rw [heq, hy] at hx
    exact hne (Option.some.inj hx).symm
  | stray h =>
    obtain ⟨g, hg, hchar⟩ := h
    exact hamp g (heq ▸ hg) hchar
  | literal _ _ h =>
    obtain ⟨g, hg⟩ := h
    have := congrArg List.length (hg.symm.trans heq)
    simp at this

/-- Two statements over three lines, the first with a leading `&`. -/
def plainLines : Source where
  lines := ["  x = 'it''s' // y ! it's", "  if (a) &", "   & call f(z)", "end"].map String.toList
  wellFormed := by
    refine ⟨by decide, by decide, by decide, by decide, trivial⟩
  noStray := by decide
  complete := by
    unfold EndsComplete
    decide

/-- A literal over two lines. -/
def brokenLiteral : Source where
  lines := ["  x = 'abc&", "    &def' + y", "end"].map String.toList
  wellFormed := by
    refine ⟨by decide, by decide, by decide, trivial⟩
  noStray := by decide
  complete := by
    unfold EndsComplete
    decide

end OutsideRefs
