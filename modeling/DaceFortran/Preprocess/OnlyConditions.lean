/-
# The conditions that are rewritten

A match of the pattern of a bare `IF` has no other match inside it, so the pass rewrites
every bare `IF` of a listed name, wherever it stands, and no other text.
-/
import DaceFortran.Preprocess.IntegerConditions
import Mathlib.Data.List.TakeWhile

open List

namespace Preprocess

open Substitution CharClasses

/-! ## The matches of the pattern -/

/-- What a match of the pattern is made of. -/
structure BareIf.Parts (m : BareIf) (text : Text) where
  i : Char
  f : Char
  blanks : Line
  inner : Line
  trail : Line
  rest : Text
  head : i.toLower = 'i'
  second : f.toLower = 'f'
  blanks_space : ∀ c ∈ blanks, isSpace c
  inner_space : ∀ c ∈ inner, isSpace c
  trail_space : ∀ c ∈ trail, isSpace c
  ident_word : ∀ c ∈ m.ident, isWord c
  opening_eq : m.opening = i :: f :: blanks ++ '(' :: inner
  closing_eq : m.closing = trail ++ [')']
  text_eq : text = m.text ++ rest

theorem takeWhile_skipSpace (text : Text) : text.takeWhile isSpace ++ skipSpace text = text :=
  takeWhile_append_dropWhile

theorem matchClosing_spec {text closing : Text} (h : matchClosing text = some closing) :
    ∃ trail rest, (∀ c ∈ trail, isSpace c) ∧ closing = trail ++ [')'] ∧ text = closing ++ rest := by
  unfold matchClosing at h
  split at h
  · next r hr =>
    refine ⟨text.takeWhile isSpace, r, fun c hc => mem_takeWhile_imp hc,
      (Option.some.inj h).symm, ?_⟩
    rw [← Option.some.inj h, append_assoc, singleton_append, ← hr, takeWhile_skipSpace]
  · cases h

theorem exists_parts {prev : Option Char} {text : Text} {m : BareIf}
    (h : matchBareIf prev text = some m) :
    Nonempty (m.Parts text) := by
  unfold matchBareIf at h
  split at h
  · cases h
  · split at h
    · next i f r =>
      split at h
      · next hif =>
        split at h
        · next s hs =>
          unfold matchCondition at h
          split at h
          · obtain ⟨closing, hclosing, rfl⟩ := Option.map_eq_some_iff.1 h
            obtain ⟨trail, rest, htrail, hc, htext⟩ := matchClosing_spec hclosing
            refine ⟨⟨i, f, r.takeWhile isSpace, s.takeWhile isSpace, trail, rest, hif.1, hif.2,
              fun c hc => mem_takeWhile_imp hc, fun c hc => mem_takeWhile_imp hc, htrail,
              fun c hc => mem_takeWhile_imp hc, rfl, hc, ?_⟩⟩
            have hword : skipSpace s = (skipSpace s).takeWhile isWord ++ (closing ++ rest) := by
              rw [← htext, takeWhile_append_dropWhile]
            have hr : r = r.takeWhile isSpace ++ '(' :: s := by rw [← hs, takeWhile_skipSpace]
            have hs' : s = s.takeWhile isSpace ++
                ((skipSpace s).takeWhile isWord ++ (closing ++ rest)) := by
              rw [← hword, takeWhile_skipSpace]
            simp only [BareIf.text, cons_append, append_assoc]
            rw [← hs', ← hr]
          · cases h
        · cases h
      · cases h
    · cases h

variable {prev : Option Char} {m : BareIf} {text : Text}

theorem BareIf.Parts.length_pos (D : m.Parts text) : 0 < m.text.length := by
  rw [BareIf.text, D.opening_eq]
  simp

theorem BareIf.Parts.take (D : m.Parts text) : text.take m.text.length = m.text := by
  rw [D.text_eq, take_left]

/-- What a rewritten condition begins with cannot come from the condition as it was. -/
theorem BareIf.Parts.rewritten_ne (D : m.Parts text) (x y : Text) :
    m.rewritten ++ x ≠ m.text ++ y := by
  intro h
  rw [BareIf.rewritten, BareIf.text, D.closing_eq] at h
  simp only [append_assoc, append_cancel_left_eq] at h
  have htrail := D.trail_space
  have hcompared : " /= 0".toList = [' ', '/', '=', ' ', '0'] := rfl
  -- `/` stands where the closing has its parenthesis or a second blank
  cases htr : D.trail with
  | nil =>
    rw [htr, hcompared] at h
    simp at h
  | cons a trail =>
    rw [htr, hcompared] at h
    rw [htr] at htrail
    cases trail with
    | nil => simp at h
    | cons b trail =>
      have hb : isSpace b := htrail b (by simp)
      simp only [cons_append, List.cons.injEq] at h
      rw [← h.2.1] at hb
      exact absurd hb (by decide)

/-! ## No match starts inside another -/

theorem matchBareIf_of_word (h : prev.any isWord) : matchBareIf prev text = none := by
  unfold matchBareIf
  rw [if_pos h]

theorem matchBareIf_of_head {c : Char} (hc : c.toLower ≠ 'i') (prev : Option Char) (r : Text) :
    matchBareIf prev (c :: r) = none := by
  unfold matchBareIf
  split
  · rfl
  · cases r with
    | nil => rfl
    | cons f r =>
      simp only
      rw [if_neg (fun h => hc h.1)]

theorem matchBareIf_of_second {c f : Char} (hf : f.toLower ≠ 'f') (prev : Option Char) (r : Text) :
    matchBareIf prev (c :: f :: r) = none := by
  unfold matchBareIf
  split
  · rfl
  · simp only
    rw [if_neg (fun h => hf h.2)]

theorem matchBareIf_of_behind {r : Text} (hr : (skipSpace r).head? ≠ some '(')
    (prev : Option Char) (c f : Char) :
    matchBareIf prev (c :: f :: r) = none := by
  unfold matchBareIf
  split
  · rfl
  · simp only
    split
    · split
      · next s hs =>
        rw [hs] at hr
        exact absurd rfl hr
      · rfl
    · rfl

theorem not_i_of_space {c : Char} (h : isSpace c) : c.toLower ≠ 'i' :=
  forall_space (fun c => c.toLower ≠ 'i') (by decide) h

theorem not_f_of_space {c : Char} (h : isSpace c) : c.toLower ≠ 'f' :=
  forall_space (fun c => c.toLower ≠ 'f') (by decide) h

theorem skipSpace_append {trail : Line} (htrail : ∀ c ∈ trail, isSpace c) (r : Text) :
    skipSpace (trail ++ r) = skipSpace r := by
  unfold skipSpace
  rw [dropWhile_append_of_pos htrail]

theorem skipSpace_word {c : Char} (hc : isWord c) (r : Text) : skipSpace (c :: r) = c :: r := by
  unfold skipSpace
  rw [dropWhile_cons_of_neg (fun h => not_word_of_space h hc)]

/-- A name behind which a parenthesis closes is no `IF` of a condition. -/
theorem matchBareIf_of_name {name : List Char} (hname : ∀ c ∈ name, isWord c) {trail : Line}
    (htrail : ∀ c ∈ trail, isSpace c) (rest : Text) (hne : name ≠ []) (prev : Option Char) :
    matchBareIf prev (name ++ (trail ++ ')' :: rest)) = none := by
  cases name with
  | nil => exact absurd rfl hne
  | cons c name =>
    cases name with
    | nil =>
      -- one letter, and what follows it is no `f`
      cases trail with
      | nil => exact matchBareIf_of_second (by decide) prev rest
      | cons b trail => exact matchBareIf_of_second (not_f_of_space (htrail b mem_cons_self)) prev _
    | cons f name =>
      -- the first parenthesis behind two letters is a closing one, or there are more letters
      have hbehind : (skipSpace (name ++ (trail ++ ')' :: rest))).head? ≠ some '(' := by
        cases name with
        | nil =>
          rw [nil_append, skipSpace_append htrail]
          intro h
          exact absurd (Option.some.inj h) (by decide)
        | cons d name =>
          have hd : isWord d := hname d (by simp)
          rw [cons_append, skipSpace_word hd, List.head?_cons]
          intro h
          rw [Option.some.inj h] at hd
          exact absurd hd (by decide)
      exact matchBareIf_of_behind hbehind prev c f

/-- Behind a character of a word no match starts. -/
theorem silent_word {name : List Char} (hname : ∀ c ∈ name, isWord c)
    (hprev : prev.any isWord) (v : Text) :
    bareIfRe.Silent prev name v := by
  induction name generalizing prev with
  | nil =>
    intro k hk
    exact absurd hk (Nat.not_lt_zero k)
  | cons c name ih =>
    intro k hk
    cases k with
    | zero => exact matchBareIf_of_word hprev
    | succ k =>
      have hc : (some c).any isWord := hname c mem_cons_self
      exact ih (fun d hd => hname d (mem_cons_of_mem c hd)) hc k (Nat.lt_of_succ_lt_succ hk)

/-- No match starts in a name behind which a parenthesis closes. -/
theorem silent_name {name : List Char} (hname : ∀ c ∈ name, isWord c) {trail : Line}
    (htrail : ∀ c ∈ trail, isSpace c) (rest : Text) (prev : Option Char) :
    bareIfRe.Silent prev name (trail ++ ')' :: rest) := by
  cases name with
  | nil =>
    intro k hk
    exact absurd hk (Nat.not_lt_zero k)
  | cons c name =>
    intro k hk
    cases k with
    | zero => exact matchBareIf_of_name hname htrail rest (by simp) prev
    | succ k =>
      have hc : (some c).any isWord := hname c mem_cons_self
      exact silent_word (fun d hd => hname d (mem_cons_of_mem c hd)) hc _ k
        (Nat.lt_of_succ_lt_succ hk)

theorem bareIfRe_apart : bareIfRe.Apart := by
  intro prev text m hm k hk₀ hk
  obtain ⟨D⟩ := exists_parts hm
  obtain ⟨k, rfl⟩ := Nat.exists_eq_succ_of_ne_zero (Nat.ne_of_gt hk₀)
  have hblank : ∀ c, isSpace c → ∀ prev r, bareIfRe.matchHead prev (c :: r) = none :=
    fun c hc prev r => matchBareIf_of_head (not_i_of_space hc) prev r
  have hopening : ∀ c ∈ D.f :: D.blanks ++ '(' :: D.inner, ∀ prev r,
      bareIfRe.matchHead prev (c :: r) = none := by
    intro c hc prev r
    simp only [cons_append, mem_cons, mem_append] at hc
    rcases hc with rfl | hc | rfl | hc
    · apply matchBareIf_of_head
      rw [D.second]
      decide
    · exact hblank c (D.blanks_space c hc) prev r
    · exact matchBareIf_of_head (by decide) prev r
    · exact hblank c (D.inner_space c hc) prev r
  have hclosing : ∀ c ∈ D.trail ++ [')'], ∀ prev r, bareIfRe.matchHead prev (c :: r) = none := by
    intro c hc prev r
    rcases mem_append.1 hc with hc | hc
    · exact hblank c (D.trail_space c hc) prev r
    · rw [mem_singleton] at hc
      rw [hc]
      exact matchBareIf_of_head (by decide) prev r
  -- behind its `I` a match is its opening, its name and its closing
  have hsilent : bareIfRe.Silent (some D.i) ((D.f :: D.blanks ++ '(' :: D.inner) ++
    (m.ident ++ (D.trail ++ [')'])))
      D.rest := by
    apply Pattern.Silent.append
    · exact Pattern.silent_of_forall hopening _ _
    · apply Pattern.Silent.append
      · rw [append_assoc]
        exact silent_name D.ident_word D.trail_space D.rest _
      · exact Pattern.silent_of_forall hclosing _ _
  have htext : m.text = D.i ::
      ((D.f :: D.blanks ++ '(' :: D.inner) ++ (m.ident ++ (D.trail ++ [')']))) := by
    rw [BareIf.text, D.opening_eq, D.closing_eq]
    simp
  have hlen : k < ((D.f :: D.blanks ++ '(' :: D.inner) ++
      (m.ident ++ (D.trail ++ [')']))).length := by
    have hwidth : bareIfRe.width m = m.text.length := rfl
    rw [hwidth, htext, length_cons] at hk
    omega
  rw [D.text_eq, htext]
  exact hsilent k hlen

/-! ## What the pass rewrites -/

theorem preprocessFortran_eq (source : Text) :
    preprocessFortran source =
      bareIfRe.sub (fun _ m => rewriteCondition (collectIntegerScalarNames source) m) 0 0
        none source := by
  unfold preprocessFortran
  simp only
  split
  · next hnil =>
    rw [hnil]
    symm
    apply Pattern.sub_self
    intro prev text m hm
    obtain ⟨D⟩ := exists_parts hm
    refine ⟨D.length_pos, fun pos => ?_⟩
    exact D.take.symm
  · rfl

/-- **Two rewritings agree if they choose the same bare `IF`s.** -/
theorem sub_eq_iff_chosen (chosen chosen' : ℕ → BareIf → Bool) (source : Text) :
    bareIfRe.sub (fun p m => if chosen p m then m.rewritten else m.text) 0 0 none source =
        bareIfRe.sub (fun p m => if chosen' p m then m.rewritten else m.text) 0 0 none source ↔
      ∀ p m, bareIfRe.matchAt none source p = some m → chosen p m = chosen' p m := by
  have hsame : ∀ prev text m, bareIfRe.matchHead prev text = some m → ∀ (b b' : Bool) (x y : Text),
      (if b then m.rewritten else m.text) ++ x = (if b' then m.rewritten else m.text) ++ y →
        b = b' := by
    intro prev text m hm b b' x y h
    obtain ⟨D⟩ := exists_parts hm
    cases b with
    | true =>
      cases b' with
      | true => rfl
      | false => exact absurd h (D.rewritten_ne x y)
    | false =>
      cases b' with
      | true => exact absurd h.symm (D.rewritten_ne y x)
      | false => rfl
  rw [Pattern.sub_eq_iff bareIfRe_apart ?_ 0 0 none source
    (fun k hk => absurd hk (Nat.not_lt_zero k))]
  · constructor
    · intro h p m hm
      have heq := h p m hm
      rw [Nat.zero_add] at heq
      obtain ⟨prev, text, hhead⟩ := Pattern.exists_matchHead hm
      apply hsame prev text m hhead _ _ [] []
      rw [heq]
    · intro h p m hm
      rw [Nat.zero_add, h p m hm]
  · intro prev text m hm pos x y h
    rw [hsame prev text m hm _ _ x y h]

/-- The bare `IF`s the pass chooses. -/
def listed (source : Text) (m : BareIf) : Bool :=
  decide (lower m.ident ∈ collectIntegerScalarNames source)

/-- **The pass rewrites the bare `IF`s of the listed names and no others.** -/
theorem preprocessFortran_eq_rewriteIfs_iff (source : Text) (E : ℕ → Bool) :
    preprocessFortran source = rewriteIfs E source ↔
      ∀ p m, bareIfRe.matchAt none source p = some m → listed source m = E p := by
  have hrule : (fun (_ : ℕ) (m : BareIf) => rewriteCondition (collectIntegerScalarNames source) m) =
      fun _ m => if listed source m then m.rewritten else m.text := by
    funext _ m
    unfold rewriteCondition listed
    simp only [decide_eq_true_eq]
  rw [preprocessFortran_eq, hrule, rewriteIfs]
  exact sub_eq_iff_chosen (fun _ m => listed source m) (fun p _ => E p) source

end Preprocess
