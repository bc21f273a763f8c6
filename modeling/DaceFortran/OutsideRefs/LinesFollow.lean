/-
# The lines `_logical_lines` reads as they are meant

The code agrees with the free source form line by line as long as no line ends inside a literal,
no comment line comes between a line and its continuation and no token is broken by
`&` and `&` (`KeepsLine`): it then stands where the reader of the source stands (`Aligned`).
-/
import DaceFortran.OutsideRefs.Readings

open List

namespace OutsideRefs

/-! ## Sources and the condition -/

/-- Whether the line is neither a preprocessor line nor a comment line. -/
def isCode (raw : Line) : Bool := !isDirective raw && !isCommentLine raw

/-- `&` as the only character of the line that is no blank and no comment. -/
def loneAmpersand (raw : Line) : Bool :=
  (lstrip raw).head? = some '&' && isCommentLine ((lstrip raw).drop 1)

/-- The rules of the form for each line: a literal goes on after an `&`, and no line of code
holds a single `&`. -/
def WellFormedFrom (f : Form) : List Line → Prop
  | [] => True
  | raw :: rest =>
    (isCode raw → (f.openLit ≠ none → (lstrip raw).head? = some '&')
      ∧ (f.openLit = none → loneAmpersand raw = false))
    ∧ WellFormedFrom (formLine f raw).2 rest

/-- The last line that is no preprocessor line holds no `&`. -/
def EndsComplete (lines : List Line) : Prop :=
  ∀ last ∈ (lines.filter fun raw => !isDirective raw).getLast?, '&' ∉ last

/-- A source in free form. -/
structure Source where
  lines : List Line
  wellFormed : WellFormedFrom start lines
  /-- No `&` but those of the continuations stands outside the literals and comments. -/
  noStray : ∀ g ∈ fortranText lines, g.char ≠ '&'
  complete : EndsComplete lines

/-- Whether the text goes on with the token before it. -/
def Ctx.gluesHead (ctx : Ctx) (t : List Char) : Bool := t.head?.any fun d => ctx.glues d.toLower

/-- A line of code that is read as it is meant. -/
structure KeepsLine (f : Form) (raw : Line) : Prop where
  /-- It does not end inside a literal. -/
  closed : (scan f.openLit (resumeText f raw)).2 = none
  /-- Where comment lines came since a continued line, it has no leading `&` and begins a
  statement. -/
  uncut : f.interrupted = true →
    resumes f raw = false ∧ (f.ctx.blank = .apart ∨ (lstrip raw).head? = some ';')
  /-- Its leading `&` does not stand inside a token. -/
  whole : resumes f raw = true → f.ctx.gluesHead (resumeText f raw) = false

def KeepsFrom (f : Form) : List Line → Prop
  | [] => True
  | raw :: rest => (isCode raw → KeepsLine f raw) ∧ KeepsFrom (formLine f raw).2 rest

/-- Every line of code is read as it is meant. -/
def Source.Keeps (src : Source) : Prop := KeepsFrom start src.lines

def BangFreeFrom (f : Form) : List Line → Prop
  | [] => True
  | raw :: rest =>
    (isCode raw → f.openLit ≠ none → loneAmpersand raw = false)
    ∧ BangFreeFrom (formLine f raw).2 rest

/-- No literal goes on, after the `&`, with an exclamation mark. -/
def Source.BangFree (src : Source) : Prop := BangFreeFrom start src.lines

/-! ## A line of code -/

variable {c : Char} {t : List Char} {raw : Line} {f : Form} {acc : List Glyph} {st : State}

theorem scan_none_char (hq : isQuote c = false) (hb : c ≠ '!') (t : List Char) :
    scan none (c :: t) = (c :: (scan none t).1, (scan none t).2) := by
  rw [scan, if_neg (by simp [hq]), if_neg hb]

theorem scan_lstrip (raw : Line) :
    lstrip (scan none raw).1 = (scan none (lstrip raw)).1
      ∧ (scan none raw).2 = (scan none (lstrip raw)).2 := by
  induction raw with
  | nil => exact ⟨rfl, rfl⟩
  | cons c t ih =>
    cases hc : isBlank c with
    | true =>
      have hb : c ≠ '!' := by
        rintro rfl
        cases hc
      rw [scan_none_char (not_isQuote_of_isBlank hc) hb, lstrip_blank hc, lstrip_blank hc]
      exact ih
    | false =>
      rw [lstrip_nonblank hc]
      refine ⟨?_, rfl⟩
      rw [scan]
      split
      · exact lstrip_nonblank hc _
      · split
        · rfl
        · exact lstrip_nonblank hc _

variable {quote : Option Char} {pending : List Char} {ctx : Ctx}

/-- A literal is open by a quote. -/
theorem isQuote_of_scan (h : ∀ q ∈ quote, isQuote q = true) (t : List Char) :
    ∀ q ∈ (scan quote t).2, isQuote q = true := by
  fun_induction scan quote t with
  | case1 quote => exact h
  | case2 q => simp
  | case3 q c hc => exact h
  | case4 q rest ih => exact ih h
  | case5 q d rest hd ih => exact ih (by simp)
  | case6 q c d rest hc ih => exact ih h
  | case7 c rest hc ih =>
    refine ih ?_
    rintro q ⟨⟩
    exact hc
  | case8 rest hc => simp
  | case9 c rest hc hb ih => exact ih h

theorem mem_of_mem_scan (h : c ∈ (scan quote t).1) :
    c ∈ t := by
  fun_induction scan quote t <;> grind

theorem head?_of_scan (h : (scan none t).1.head? = some c) :
    t.head? = some c := by
  cases t with
  | nil => cases h
  | cons d t =>
    rw [scan] at h
    split at h
    · exact h
    · split at h
      · cases h
      · exact h

theorem head?_scan (h : t.head? = some c) (hc : c ≠ '!') :
    (scan none t).1.head? = some c := by
  cases t with
  | nil => cases h
  | cons d t =>
    cases h
    cases hq : isQuote c with
    | true =>
      rw [scan, if_pos hq]
      rfl
    | false =>
      rw [scan_none_char hq hc]
      rfl

theorem strip_codeOf (raw : Line) :
    strip (codeOf raw)
      = rstrip (scan none (lstrip raw)).1 ++ (scan none (lstrip raw)).2.toList := by
  obtain ⟨h1, h2⟩ := scan_lstrip raw
  rw [codeOf, ← h1, ← h2, strip]
  cases hq : (scan none raw).2 with
  | none =>
    simp only [Option.toList, append_nil]
    rw [lstrip_rstrip, rstrip_rstrip]
  | some q =>
    have hb : isBlank q = false := isBlank_of_isQuote (isQuote_of_scan (by simp) raw q hq)
    simp only [Option.toList]
    rw [lstrip_concat hb, rstrip_concat hb, lstrip_rstrip]

/-- The part of a statement in a text, a literal that goes on in the next line closed. -/
def part (t : List Char) : List Char := rstrip (scan none t).1 ++ (scan none t).2.toList

/-- A text that ends inside a literal holds the quote that opens it. -/
theorem rstrip_scan_ne_nil {q : Char} (h : (scan none t).2 = some q) :
    rstrip (scan none t).1 ≠ [] := by
  induction t with
  | nil => cases h
  | cons c t ih =>
    rw [scan] at h ⊢
    split
    · rename_i hc
      rw [rstrip_nonblank (isBlank_of_isQuote hc)]
      exact cons_ne_nil _ _
    · rename_i hc
      rw [if_neg hc] at h
      split
      · rename_i hb
        rw [if_pos hb] at h
        cases h
      · rename_i hb
        rw [if_neg hb] at h
        rw [rstrip, if_neg fun h' => ih h h'.1]
        exact cons_ne_nil _ _

theorem head?_of_part (h : (part t).head? = some c) :
    t.head? = some c := by
  rw [part] at h
  cases hr : rstrip (scan none t).1 with
  | nil =>
    cases hq : (scan none t).2 with
    | none => rw [hr, hq] at h; cases h
    | some q => exact absurd hr (rstrip_scan_ne_nil hq)
  | cons d r =>
    rw [hr] at h
    cases h
    apply head?_of_scan
    apply head?_of_rstrip
    rw [hr]
    rfl

theorem head?_part (h : t.head? = some c) (hb : isBlank c = false)
    (hc : c ≠ '!') : (part t).head? = some c := by
  have hr := head?_rstrip hb (head?_scan h hc)
  rw [part, List.head?_append, hr]
  rfl

/-- A line that is not taken for a continuation. -/
theorem bodyOf_plain
    (h : pending = [] ∨ (lstrip raw).head? ≠ some '&') :
    bodyOf pending raw = part (lstrip raw) := by
  rw [bodyOf, strip_codeOf]
  refine if_neg ?_
  rintro ⟨hp, hhead⟩
  obtain h | h := h
  · exact hp h
  · exact h (head?_of_part hhead)

/-- A line that is taken for one, by its leading `&`. -/
theorem bodyOf_resumed {rest : List Char} (h : pending ≠ [])
    (hs : lstrip raw = '&' :: rest) : bodyOf pending raw = part rest := by
  have hpart : part ('&' :: rest) = '&' :: part rest := by
    rw [part, scan_none_char rfl (by decide), rstrip_nonblank rfl]
    rfl
  rw [bodyOf, strip_codeOf, hs]
  show (if pending ≠ [] ∧ (part ('&' :: rest)).head? = some '&' then (part ('&' :: rest)).drop 1
    else part ('&' :: rest)) = part rest
  rw [hpart, if_pos ⟨h, rfl⟩]
  rfl

/-! ## Two readings of one text -/

/-- What precedes the text makes no difference. -/
structure Same (k ctx : Ctx) (t : List Char) : Prop where
  glyphs : glyphs k t = glyphs ctx t
  past : (k.past t).blank = (ctx.past t).blank

theorem Same.refl (ctx : Ctx) (t : List Char) : Same ctx ctx t := ⟨rfl, rfl⟩

theorem same_of_next {k : Ctx} (hmark : k.mark c = ctx.mark c)
    (hnext : k.next c = ctx.next c) : Same k ctx (c :: t) := by
  refine ⟨?_, ?_⟩
  · show k.mark c ++ OutsideRefs.glyphs (k.next c) t = ctx.mark c ++
      OutsideRefs.glyphs (ctx.next c) t
    rw [hmark, hnext]
  · rw [Ctx.past_cons, Ctx.past_cons, hnext]

/-- A blank before a text that does not go on with a token. -/
theorem same_blank (h : ctx.gluesHead t = false) :
    Same ctx.blank ctx t := by
  cases t with
  | nil => exact ⟨rfl, ctx.blank_blank⟩
  | cons c t =>
    have hglue : ctx.glues c.toLower = false := h
    apply same_of_next
    · unfold Ctx.mark
      split
      · rfl
      · cases ctx with
        | apart => rfl
        | spaced => rfl
        | after d =>
          show [(⟨c.toLower, .spaced⟩ : Glyph)]
            = [⟨c.toLower, if (Ctx.after d).glues c.toLower then .glued else .spaced⟩]
          rw [hglue]
          rfl
    · unfold Ctx.next
      split
      · exact ctx.blank_blank
      · rfl

theorem same_semicolon (k ctx : Ctx) (h : t.head? = some ';') : Same k ctx t := by
  cases t with
  | nil => cases h
  | cons c t =>
    cases h
    exact same_of_next (by simp) (by simp)

theorem head?_untrail (h : t.head? = some c) (hc : c ≠ '&') :
    (untrail t).head? = some c := by
  unfold untrail
  split
  · rename_i hlast
    cases t with
    | nil => cases h
    | cons d t =>
      cases h
      cases t with
      | nil => exact absurd (Option.some.inj hlast) hc
      | cons e t => rfl
  · exact h

theorem head?_of_untrail (h : (untrail t).head? = some c) :
    t.head? = some c := by
  unfold untrail at h
  split at h
  · cases t with
    | nil => cases h
    | cons d t =>
      cases t with
      | nil => cases h
      | cons e t => exact h
  · exact h

/-- A text that opens as another does, where it opens at all. -/
structure Opens (t u : List Char) : Prop where
  head : ∀ c, t.head? = some c → u.head? = some c
  semicolon : u.head? = some ';' → t.head? = some ';'

theorem opens_untrail_part (t : List Char) : Opens (untrail (part t)) t where
  head := fun _ h => head?_of_part (head?_of_untrail h)
  semicolon := fun h => head?_untrail (head?_part h rfl (by decide)) (by decide)

theorem opens_scan (t : List Char) : Opens (scan none t).1 t where
  head := fun _ h => head?_of_scan h
  semicolon := fun h => head?_scan h (by decide)

theorem Opens.gluesHead {t u : List Char} (h : Opens t u) (hu : ctx.gluesHead u = false) :
    ctx.gluesHead t = false := by
  cases ht : t.head? with
  | none => simp [Ctx.gluesHead, ht]
  | some c =>
    rw [Ctx.gluesHead, ht]
    rwa [Ctx.gluesHead, h.head c ht] at hu

/-! ## The code beside the form -/

/-- The code stands where the reader of the source stands. -/
structure Aligned (f : Form) (st : State) (acc : List Glyph) : Prop where
  read : total st = acc
  openLit : f.openLit = none
  joined : f.continued = true → f.interrupted = false →
    st.pending ≠ [] ∧ Ctx.past .apart st.pending = f.ctx.blank
  fresh : f.continued = false ∨ f.interrupted = true → st.pending = []
  plain : f.continued = false → f.ctx = .apart ∧ f.interrupted = false

theorem aligned_start : Aligned start initial [] where
  read := rfl
  openLit := rfl
  joined := fun h => by cases h
  fresh := fun _ => rfl
  plain := fun _ => ⟨rfl, rfl⟩

/-- What the form reads of a line of code that does not end inside a literal. -/
theorem formLine_closed (hcode : isCode raw = true) (hopen : f.openLit = none)
    (hclosed : (scan none (resumeText f raw)).2 = none) :
    (formLine f raw).1 = glyphs (resumeCtx f raw) (untrail (part (resumeText f raw)))
    ∧ (formLine f raw).2
      = if (part (resumeText f raw)).getLast? = some '&'
        then ⟨none, true, false, (resumeCtx f raw).past (untrail (part (resumeText f raw)))⟩
        else ⟨none, false, false, .apart⟩ := by
  simp only [isCode, Bool.and_eq_true, Bool.not_eq_true'] at hcode
  have hpart : part (resumeText f raw) = rstrip (scan none (resumeText f raw)).1 := by
    rw [part, hclosed]
    exact append_nil _
  rw [formLine, if_neg (by simp [hcode.1]), if_neg (by simp [hcode.2]), hopen]
  simp only [hclosed]
  rw [← hpart]
  by_cases htrail : (part (resumeText f raw)).getLast? = some '&'
  · rw [if_pos htrail, if_pos htrail]
    exact ⟨rfl, rfl⟩
  · rw [if_neg htrail, if_neg htrail, untrail_of_not htrail]
    exact ⟨rfl, rfl⟩

/-- The code reads the same part of a line as the form does, but for a leading `&` after comment
lines. -/
theorem Aligned.bodyOf (h : Aligned f st acc)
    (huncut : f.interrupted = true → resumes f raw = false) :
    bodyOf st.pending raw = part (resumeText f raw) := by
  cases hres : resumes f raw with
  | true =>
    have hint : f.interrupted = false := by
      cases hint : f.interrupted with
      | false => rfl
      | true => rw [huncut hint] at hres; cases hres
    simp only [resumes, Bool.and_eq_true, decide_eq_true_eq] at hres
    obtain ⟨rest, hrest⟩ : ∃ rest, lstrip raw = '&' :: rest := List.head?_eq_some_iff.1 hres.2
    rw [bodyOf_resumed (h.joined hres.1 hint).1 hrest, resumeText,
      if_pos (by simp [resumes, hres]), hrest]
    rfl
  | false =>
    rw [resumeText, if_neg (by simp [hres]), bodyOf_plain]
    cases hcont : f.continued with
    | false => exact .inl (h.fresh (.inl hcont))
    | true =>
      right
      simpa [resumes, hcont] using hres

/-- Where no token is broken and no statement cut, what precedes the line's text makes no
difference. -/
theorem Aligned.same (h : Aligned f st acc)
    (huncut : f.interrupted = true →
      resumes f raw = false ∧ (f.ctx.blank = .apart ∨ (lstrip raw).head? = some ';'))
    (hwhole : resumes f raw = true → f.ctx.gluesHead (resumeText f raw) = false)
    (ht : Opens t (resumeText f raw)) :
    Same (Ctx.past .apart st.pending) (resumeCtx f raw) t := by
  cases hcont : f.continued with
  | false =>
    have hres : resumes f raw = false := by simp [resumes, hcont]
    rw [h.fresh (.inl hcont), resumeCtx, if_neg (by simp [hres]), (h.plain hcont).1]
    exact Same.refl _ _
  | true =>
    cases hint : f.interrupted with
    | false =>
      rw [(h.joined hcont hint).2, resumeCtx]
      split
      · rename_i hres
        exact same_blank (ht.gluesHead (hwhole hres))
      · exact Same.refl _ _
    | true =>
      obtain ⟨hres, hapart | hsemi⟩ := huncut hint
      · rw [h.fresh (.inr hint), resumeCtx, if_neg (by simp [hres]), hapart]
        exact Same.refl _ _
      · refine same_semicolon _ _ (ht.semicolon ?_)
        rw [resumeText, if_neg (by simp [hres])]
        exact hsemi

theorem Aligned.code (h : Aligned f st acc)
    (hcode : isCode raw = true) (hkeep : KeepsLine f raw) (number : ℕ) :
    Aligned (formLine f raw).2 (lineStep st number raw) (acc ++ (formLine f raw).1) := by
  have hclosed : (scan none (resumeText f raw)).2 = none := by
    have := hkeep.closed
    rwa [h.openLit] at this
  have hbody := h.bodyOf fun hint => (hkeep.uncut hint).1
  have hsame := h.same hkeep.uncut hkeep.whole (opens_untrail_part (resumeText f raw))
  obtain ⟨hchunk, hform⟩ := formLine_closed hcode h.openLit hclosed
  have hdir : isDirective raw = false := by
    simp only [isCode, Bool.and_eq_true, Bool.not_eq_true'] at hcode
    exact hcode.1
  have hpend := pending_lineStep hdir st number
  have htotal := total_lineStep hdir st number
  rw [hbody] at hpend htotal
  rw [hsame.glyphs, h.read, ← hchunk] at htotal
  rw [hform]
  by_cases htrail : (part (resumeText f raw)).getLast? = some '&'
  · rw [if_pos htrail] at hpend ⊢
    refine ⟨htotal, rfl, fun _ _ => ?_, fun h' => by simp at h', fun h' => by simp at h'⟩
    rw [hpend]
    refine ⟨by simp, ?_⟩
    -- the blank the code puts for the `&`
    rw [Ctx.past_append, Ctx.past_append]
    show Ctx.next _ ' ' = _
    rw [Ctx.next_space]
    have huntrail : untrail (part (resumeText f raw)) = (part (resumeText f raw)).dropLast :=
      if_pos htrail
    rw [← huntrail, hsame.past]
  · rw [if_neg htrail] at hpend ⊢
    exact ⟨htotal, rfl, fun h' => absurd h' (by simp), fun _ => hpend, fun _ => ⟨rfl, rfl⟩⟩

/-- A comment line adds nothing; the code takes it for the end of a continued statement. -/
theorem comment_lineStep (hdir : isDirective raw = false)
    (hcomment : isCommentLine raw = true) (st : State) (number : ℕ) :
    total (lineStep st number raw) = total st ∧ (lineStep st number raw).pending = [] := by
  have hpart : part (lstrip raw) = [] := by
    simp only [isCommentLine, Bool.or_eq_true, decide_eq_true_eq] at hcomment
    obtain h | h := hcomment
    · rw [h]
      rfl
    · obtain ⟨rest, hrest⟩ : ∃ rest, lstrip raw = '!' :: rest := List.head?_eq_some_iff.1 h
      rw [hrest, part, scan, if_neg (by decide), if_pos rfl]
      rfl
  have hbody : bodyOf st.pending raw = [] := by
    rw [bodyOf_plain, hpart]
    right
    intro h
    rw [isCommentLine, h] at hcomment
    cases hl : lstrip raw with
    | nil => rw [hl] at h; cases h
    | cons c t => simp [hl] at hcomment
  have htotal := total_lineStep hdir st number
  have hpend := pending_lineStep hdir st number
  rw [hbody] at htotal hpend
  refine ⟨?_, hpend⟩
  rw [htotal]
  exact append_nil _

theorem Aligned.comment (h : Aligned f st acc)
    (hdir : isDirective raw = false) (hcomment : isCommentLine raw = true)
    (number : ℕ) :
    Aligned (formLine f raw).2 (lineStep st number raw) (acc ++ (formLine f raw).1) := by
  obtain ⟨htotal, hpend⟩ := comment_lineStep hdir hcomment st number
  have hform : formLine f raw = ([], { f with interrupted := f.continued }) := by
    rw [formLine, if_neg (by simp [hdir]), if_pos hcomment]
  rw [hform, append_nil]
  refine ⟨htotal.trans h.read, h.openLit, fun hc hi => ?_, fun _ => hpend,
    fun hc => ⟨(h.plain hc).1, hc⟩⟩
  rw [show f.continued = false from hi] at hc
  cases hc

theorem Aligned.directive (h : Aligned f st acc)
    (hdir : isDirective raw = true) (number : ℕ) :
    Aligned (formLine f raw).2 (lineStep st number raw) (acc ++ (formLine f raw).1) := by
  obtain ⟨htotal, hpend⟩ := lineStep_directive hdir st number
  have hform : formLine f raw = ([], f) := by rw [formLine, if_pos hdir]
  rw [hform, append_nil]
  exact ⟨htotal.trans h.read, h.openLit, hpend ▸ h.joined, hpend ▸ h.fresh, h.plain⟩

/-- One line under the condition. -/
theorem Aligned.step (h : Aligned f st acc)
    (hkeep : isCode raw = true → KeepsLine f raw) (number : ℕ) :
    Aligned (formLine f raw).2 (lineStep st number raw) (acc ++ (formLine f raw).1) := by
  cases hdir : isDirective raw with
  | true => exact h.directive hdir number
  | false =>
    cases hcomment : isCommentLine raw with
    | true => exact h.comment hdir hcomment number
    | false =>
      have hcode : isCode raw = true := by simp [isCode, hdir, hcomment]
      exact h.code hcode (hkeep hcode) number

/-- The whole source under the condition. -/
theorem Aligned.lines (h : Aligned f st acc)
    {lines : List Line} (hkeeps : KeepsFrom f lines) (number : ℕ) :
    total (linesFrom number st lines) = acc ++ (formFrom f lines).1 := by
  induction lines generalizing f st acc number with
  | nil => exact h.read.trans (append_nil _).symm
  | cons raw lines ih =>
    show total (linesFrom (number + 1) (lineStep st number raw) lines) = _
    rw [ih (h.step hkeeps.1 number) hkeeps.2, append_assoc]
    rfl

theorem mem_of_mem_rstrip (h : c ∈ rstrip t) : c ∈ t := by
  induction t with
  | nil => exact h
  | cons d t ih =>
    rw [rstrip] at h
    split at h
    · cases h
    · obtain rfl | h := mem_cons.1 h
      · exact mem_cons_self
      · exact mem_cons_of_mem _ (ih h)

theorem mem_of_mem_bodyOf
    (h : c ∈ bodyOf pending raw) (hc : isQuote c = false) : c ∈ raw := by
  have hpart : c ∈ part (lstrip raw) := by
    rw [bodyOf, strip_codeOf] at h
    split at h
    · exact mem_of_mem_drop h
    · exact h
  obtain hr | hq := mem_append.1 hpart
  · exact (dropWhile_sublist _).subset (mem_of_mem_scan (mem_of_mem_rstrip hr))
  · rw [isQuote_of_scan (by simp) (lstrip raw) c (Option.mem_toList.1 hq)] at hc
    cases hc

/-- Nothing is left unfinished behind the last line. -/
theorem pending_linesFrom {lines : List Line} (hends : EndsComplete lines) (number : ℕ) (st : State)
    (h : st.pending = [] ∨ (lines.filter fun raw => !isDirective raw) ≠ []) :
    (linesFrom number st lines).pending = [] := by
  induction lines generalizing number st with
  | nil =>
    obtain h | h := h
    · exact h
    · exact absurd rfl h
  | cons raw lines ih =>
    show (linesFrom (number + 1) (lineStep st number raw) lines).pending = []
    cases hdir : isDirective raw with
    | true =>
      have hfilter : ((raw :: lines).filter fun raw => !isDirective raw)
          = lines.filter fun raw => !isDirective raw := by simp [hdir]
      rw [EndsComplete, hfilter] at hends
      rw [hfilter] at h
      refine ih hends _ _ ?_
      rw [(lineStep_directive hdir st number).2]
      exact h
    | false =>
      have hfilter : ((raw :: lines).filter fun raw => !isDirective raw)
          = raw :: lines.filter fun raw => !isDirective raw := by simp [hdir]
      rw [EndsComplete, hfilter] at hends
      by_cases hrest : (lines.filter fun raw => !isDirective raw) = []
      · -- the last line: without an `&` its body is complete
        have hamp : '&' ∉ raw := hends raw (by rw [hrest]; rfl)
        refine ih ?_ _ _ (.inl ?_)
        · rw [EndsComplete, hrest]
          simp
        · rw [pending_lineStep hdir, if_neg]
          intro hlast
          exact hamp (mem_of_mem_bodyOf (mem_of_getLast? hlast) rfl)
      · refine ih ?_ _ _ (.inr hrest)
        rw [EndsComplete]
        rwa [List.getLast?_cons_of_ne_nil hrest] at hends

theorem logicalLines_read {lines : List Line} (hends : EndsComplete lines) :
    (logicalLines lines).flatMap (fun s => reading s.text) = total (linesFrom 1 initial lines) := by
  rw [total, pending_linesFrom hends 1 initial (.inl rfl)]
  exact (append_nil _).symm

end OutsideRefs
