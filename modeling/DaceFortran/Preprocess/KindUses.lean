/-
# The places of a kind do not overlap

A match of `KIND = x` or of `REAL(x)` has no digit that begins a word, and a literal has only
digits and the letters of an exponent there.  So a literal overlaps neither of them, and the
queue of a line leaves out a `REAL(x)` behind `KIND =` only.
-/
import DaceFortran.Preprocess.KindParameters
import DaceFortran.Preprocess.OnlyConditions
import DaceFortran.Lib.AssocLists

open List

namespace Preprocess.KindParameters

open Substitution CharClasses

/-! ## The characters that begin a word -/

/-- The characters of `text` that begin a word satisfy `Q`. -/
def WordStarts (Q : Char → Prop) : Option Char → Text → Prop
  | _, [] => True
  | prev, c :: r => (isWord c → ¬ prev.any isWord → Q c) ∧ WordStarts Q (some c) r

theorem getLast?_or_cons (prev : Option Char) (c : Char) (u : Text) :
    ((c :: u).getLast?).or prev = u.getLast?.or (some c) := by
  cases u with
  | nil => rfl
  | cons d u => simp [List.getLast?_cons]

variable {Q : Char → Prop}

variable {prev : Option Char} {c : Char}

theorem wordStarts_append {u v : Text} (hu : WordStarts Q prev u)
    (hv : WordStarts Q (u.getLast?.or prev) v) : WordStarts Q prev (u ++ v) := by
  induction u generalizing prev with
  | nil => simpa using hv
  | cons c u ih =>
    rw [getLast?_or_cons] at hv
    exact ⟨hu.1, ih hu.2 hv⟩

theorem wordStarts_of_forall {u : Text} (h : ∀ c ∈ u, isWord c → Q c) (prev : Option Char) :
    WordStarts Q prev u := by
  induction u generalizing prev with
  | nil => trivial
  | cons c u ih =>
    refine ⟨fun hc _ => h c mem_cons_self hc, ih (fun d hd => h d (mem_cons_of_mem c hd)) (some c)⟩

/-- Behind the first character of a word no other word begins. -/
theorem wordStarts_word {u : Text} (hprev : prev.any isWord) (hu : ∀ c ∈ u, isWord c) :
    WordStarts Q prev u := by
  induction u generalizing prev with
  | nil => trivial
  | cons c u ih =>
    refine ⟨fun _ hn => absurd hprev hn, ih ?_ fun d hd => hu d (mem_cons_of_mem c hd)⟩
    exact hu c mem_cons_self

/-- A word that begins inside of `u`. -/
theorem WordStarts.at {u rest : Text} (h : WordStarts Q prev u) {k : ℕ} (hk : k < u.length)
    {r : Text} (hc : (u ++ rest).drop k = c :: r) (hword : isWord c)
    (hstart : ¬ ((((u ++ rest).take k).getLast?).or prev).any isWord) : Q c := by
  induction u generalizing prev k with
  | nil => exact absurd hk (Nat.not_lt_zero k)
  | cons d u ih =>
    cases k with
    | zero =>
      obtain ⟨rfl, -⟩ := List.cons.inj hc
      exact h.1 hword hstart
    | succ k =>
      rw [cons_append, take_succ_cons, getLast?_or_cons] at hstart
      exact ih h.2 (Nat.lt_of_succ_lt_succ hk) hc hstart

/-! ## What a match is made of -/

/-- A match at the head of a text: it begins a word, with a character of `H`, and the words in it
begin with characters of `Q`. -/
structure MatchShape (H Q : Char → Prop) (prev : Option Char) (text : Text) (u : KindUse) :
    Prop where
  fresh : ¬ prev.any isWord
  inText : u.text <+: text
  head : ∃ c r, text = c :: r ∧ isWord c ∧ H c
  starts : WordStarts Q prev u.text

/-- A letter a keyword begins with. -/
def IsKeywordLetter (c : Char) : Prop := c.toLower ∈ "kricl".toList

/-- A property of digits is looked up. -/
theorem forall_digit (q : Char → Prop)
    (h : ∀ n ∈ [48, 49, 50, 51, 52, 53, 54, 55, 56, 57], q (Char.ofNat n))
    (hc : c.isDigit) : q c := by
  have hq := h c.toNat (by
    have hrange := Char.isDigit_iff_toNat.1 hc
    rw [show '0'.toNat = 48 from rfl, show '9'.toNat = 57 from rfl] at hrange
    simp only [mem_cons, not_mem_nil]
    omega)
  rwa [Char.ofNat_toNat] at hq

theorem not_attributeChar_of_digit (h : c.isDigit) : ¬ isAttributeChar c :=
  forall_digit (fun c => ¬ isAttributeChar c) (by decide) h

theorem toLower_digit (h : c.isDigit) : c.toLower = c :=
  forall_digit (fun c => c.toLower = c) (by decide) h

theorem isWord_of_digit (h : c.isDigit) : isWord c :=
  forall_digit (fun c => isWord c) (by decide) h

theorem not_keywordLetter_of_digit (h : c.isDigit) : ¬ IsKeywordLetter c :=
  forall_digit (fun c => ¬ c.toLower ∈ "kricl".toList) (by decide) h

theorem isWord_of_keywordLetter (h : IsKeywordLetter c) : isWord c := by
  by_cases hupper : c.val ≥ 'A'.val ∧ c.val ≤ 'Z'.val
  · have hc : c.isUpper = true := decide_eq_true hupper
    have halpha : c.isAlpha = true := by
      show (c.isUpper || c.isLower) = true
      rw [hc, Bool.true_or]
    simp [isWord, Char.isAlphanum, halpha]
  · have hc : c.toLower = c := dif_neg hupper
    have hall : "kricl".toList.all isWord := by decide
    rw [IsKeywordLetter, hc] at h
    exact all_eq_true.1 hall c h

theorem isWord_of_attributeChar (h : isAttributeChar c) : isWord c := by
  unfold isAttributeChar at h
  unfold isWord Char.isAlphanum
  rw [Bool.or_eq_true] at h ⊢
  exact h.imp (fun h => by rw [h, Bool.true_or]) id

variable {k text r : List Char} {re : Pattern Char KindUse}

/-- The text a keyword is read from. -/
theorem keyword_spec (h : keyword k text = some r) :
    (text.take k.length).map Char.toLower = k ∧ text = text.take k.length ++ r := by
  induction k generalizing text with
  | nil =>
    cases text with
    | nil => exact ⟨rfl, Option.some.inj h⟩
    | cons c s => exact ⟨rfl, Option.some.inj h⟩
  | cons c k ih =>
    cases text with
    | nil => cases h
    | cons d s =>
      rw [keyword] at h
      split at h
      · next hd =>
        obtain ⟨hlower, hs⟩ := ih h
        refine ⟨?_, ?_⟩
        · rw [length_cons, take_succ_cons, map_cons, hlower, hd]
        · rw [length_cons, take_succ_cons, cons_append, ← hs]
      · cases h

theorem not_digit_of_keyword {k w : List Char} (hk : k.all fun c => !c.isDigit)
    (hw : w.map Char.toLower = k) :
    ∀ c ∈ w, ¬ c.isDigit := by
  intro c hc hdigit
  have hmem : c.toLower ∈ k := by
    rw [← hw]
    exact mem_map_of_mem hc
  rw [toLower_digit hdigit] at hmem
  have := all_eq_true.1 hk c hmem
  rw [hdigit] at this
  cases this

/-- A keyword, blanks, `d`, blanks and a name. -/
theorem shape_of_keyword (hkey : keyword k text = some r) (hk : k.all fun c => !c.isDigit)
    (hletter : k.head?.any fun c => decide (c ∈ "kricl".toList)) {d : Char} {s : Text}
    (hd : skipSpace r = d :: s)
    (hdigit : ¬ d.isDigit) {sym trail w : Text} (hs : skipSpace s = sym ++ trail ++ w)
    (hhead : sym.head?.any isAttributeChar) (hword : ∀ c ∈ sym, isWord c)
    (htrail : ∀ c ∈ trail, ¬ isWord c)
    (hprev : ¬ prev.any isWord) :
    MatchShape IsKeywordLetter (fun c => ¬ c.isDigit) prev text
      ⟨text.take k.length ++ r.takeWhile isSpace ++ d :: s.takeWhile isSpace, sym, trail⟩ := by
  obtain ⟨hlower, htext⟩ := keyword_spec hkey
  have hr : r = r.takeWhile isSpace ++ d :: s := by rw [← hd, takeWhile_skipSpace]
  have hs' : s = s.takeWhile isSpace ++ (sym ++ trail ++ w) := by rw [← hs, takeWhile_skipSpace]
  have hspace : ∀ {c : Char} {t : Text}, c ∈ t.takeWhile isSpace → ¬ isWord c :=
    fun hc => not_word_of_space (mem_takeWhile_imp hc)
  refine ⟨hprev, ⟨w, ?_⟩, ?_, ?_⟩
  · conv_rhs => rw [htext, hr, hs']
    simp only [KindUse.text, append_assoc, cons_append]
  · cases k with
    | nil => cases hletter
    | cons a k =>
      cases text with
      | nil => cases hkey
      | cons c t =>
        rw [length_cons, take_succ_cons, map_cons] at hlower
        obtain ⟨hc, -⟩ := List.cons.inj hlower
        have hmem : c.toLower ∈ "kricl".toList := by
          rw [hc]
          exact of_decide_eq_true hletter
        exact ⟨c, t, rfl, isWord_of_keywordLetter hmem, hmem⟩
  · unfold KindUse.text
    apply wordStarts_append
    · apply wordStarts_append
      · apply wordStarts_of_forall
        intro c hc hcword
        rcases mem_append.1 hc with hc | hc
        · rcases mem_append.1 hc with hc | hc
          · exact not_digit_of_keyword hk hlower c hc
          · exact absurd hcword (hspace hc)
        · rcases mem_cons.1 hc with rfl | hc
          · exact hdigit
          · exact absurd hcword (hspace hc)
      · cases sym with
        | nil => trivial
        | cons a sym =>
          refine ⟨fun _ _ hn => not_attributeChar_of_digit hn hhead, ?_⟩
          exact wordStarts_word (hword a mem_cons_self) fun c hc => hword c (mem_cons_of_mem a hc)
    · exact wordStarts_of_forall (fun c hc hcword => absurd hcword (htrail c hc)) _

variable {prev : Option Char} {text : Text} {u : KindUse}

/-- The name at the head of a text. -/
theorem head?_takeWhile_word (h : text.head?.any isAttributeChar) :
    (text.takeWhile isWord).head?.any isAttributeChar := by
  cases text with
  | nil => cases h
  | cons c r =>
    rw [takeWhile_cons_of_pos (isWord_of_attributeChar h)]
    exact h

theorem matchKindEq_shape (h : matchKindEq prev text = some u) :
    MatchShape IsKeywordLetter (fun c => ¬ c.isDigit) prev text u := by
  unfold matchKindEq at h
  split at h
  · cases h
  · next hprev =>
    obtain ⟨r, hkey, h⟩ := Option.bind_eq_some_iff.1 h
    split at h
    · next s hs =>
      unfold matchSymbol at h
      split at h
      · next hhead =>
        rw [← Option.some.inj h]
        refine shape_of_keyword hkey (by decide) (by decide) hs (by decide)
          (w := (skipSpace s).dropWhile isWord) ?_
          (head?_takeWhile_word hhead) (fun c hc => mem_takeWhile_imp hc)
          (fun c hc => absurd hc not_mem_nil) hprev
        rw [append_nil, takeWhile_append_dropWhile]
      · cases h
    · cases h

theorem matchTypeKeyword_shape {k : List Char} (hk : k ∈ typeKeywords) (hprev : ¬ prev.any isWord)
    (h : matchTypeKeyword text k = some u) :
    MatchShape IsKeywordLetter (fun c => ¬ c.isDigit) prev text u := by
  have hletters : typeKeywords.all fun k =>
      (k.all fun c => !c.isDigit) && k.head?.any fun c => decide (c ∈ "kricl".toList) := by decide
  have hword := all_eq_true.1 hletters k hk
  rw [Bool.and_eq_true] at hword
  obtain ⟨r, hkey, h⟩ := Option.bind_eq_some_iff.1 h
  split at h
  · next s hs =>
    unfold matchSoleArgument at h
    split at h
    · next hhead =>
      obtain ⟨closing, hclosing, rfl⟩ := Option.map_eq_some_iff.1 h
      obtain ⟨trail, rest, htrail, rfl, hrest⟩ := matchClosing_spec hclosing
      refine shape_of_keyword hkey hword.1 hword.2 hs (by decide) (w := rest) ?_
        (head?_takeWhile_word hhead)
        (fun c hc => mem_takeWhile_imp hc) ?_ hprev
      · rw [append_assoc, ← hrest, takeWhile_append_dropWhile]
      · intro c hc
        rcases mem_append.1 hc with hc | hc
        · exact not_word_of_space (htrail c hc)
        · rw [mem_singleton.1 hc]
          decide
    · cases h
  · cases h

theorem matchTypeParen_shape (h : matchTypeParen prev text = some u) :
    MatchShape IsKeywordLetter (fun c => ¬ c.isDigit) prev text u := by
  unfold matchTypeParen at h
  split at h
  · cases h
  · next hprev =>
    obtain ⟨k, hk, hmatch⟩ := exists_of_findSome?_eq_some h
    exact matchTypeKeyword_shape hk hprev hmatch

/-! ## Literals -/

/-- The characters of a number. -/
def IsNumberChar (c : Char) : Prop := ¬ IsKeywordLetter c

theorem isNumberChar_of_mem {l : List Char}
    (hl : l.all fun c => !decide (c.toLower ∈ "kricl".toList))
    (hc : c ∈ l) : IsNumberChar c := by
  have h := all_eq_true.1 hl c hc
  intro hletter
  rw [decide_eq_true (show c.toLower ∈ "kricl".toList from hletter)] at h
  cases h

theorem numberChar_of_digits (hc : c ∈ text.takeWhile Char.isDigit) : IsNumberChar c :=
  not_keywordLetter_of_digit (mem_takeWhile_imp hc)

theorem takeFraction_spec (text : Text) :
    (takeFraction text).1 ++ (takeFraction text).2 = text ∧
      ∀ c ∈ (takeFraction text).1, IsNumberChar c := by
  unfold takeFraction
  split
  · next r =>
    refine ⟨?_, ?_⟩
    · rw [cons_append, takeWhile_append_dropWhile]
    · intro c hc
      rcases mem_cons.1 hc with rfl | hc
      · exact isNumberChar_of_mem (l := ['.']) (by decide) mem_cons_self
      · exact numberChar_of_digits hc
  · exact ⟨rfl, fun c hc => absurd hc not_mem_nil⟩

theorem takeExponentDigits_spec {e : Char} {r : Text} {p : Text × Text}
    (h : takeExponentDigits e r = some p)
    (he : isExponentChar e) : p.1 ++ p.2 = e :: r ∧ ∀ c ∈ p.1, IsNumberChar c := by
  unfold takeExponentDigits at h
  simp only at h
  split at h
  · obtain rfl := Option.some.inj h
    have hsign : (r.take 1).filter isSign ++ r.drop ((r.take 1).filter isSign).length = r := by
      cases r with
      | nil => rfl
      | cons a r =>
        rw [take_succ_cons, take_zero]
        by_cases ha : isSign a
        · rw [filter_cons_of_pos ha]
          rfl
        · rw [filter_cons_of_neg ha]
          rfl
    refine ⟨?_, ?_⟩
    · simp only [cons_append, append_assoc]
      rw [takeWhile_append_dropWhile, hsign]
    · intro c hc
      rcases mem_append.1 hc with hc | hc
      · rcases mem_cons.1 hc with rfl | hc
        · exact isNumberChar_of_mem (by decide) (of_decide_eq_true he)
        · exact isNumberChar_of_mem (by decide) (of_decide_eq_true (mem_filter.1 hc).2)
      · exact numberChar_of_digits hc
  · cases h

theorem takeExponent_spec (text : Text) :
    (takeExponent text).1 ++ (takeExponent text).2 = text ∧
      ∀ c ∈ (takeExponent text).1, IsNumberChar c := by
  have hnone : ∀ t : Text, [] ++ t = t ∧ ∀ c ∈ ([] : Text), IsNumberChar c :=
    fun t => ⟨rfl, fun c hc => absurd hc not_mem_nil⟩
  unfold takeExponent
  split
  · next e r =>
    split
    · next he =>
      cases hdigits : takeExponentDigits e r with
      | none => exact hnone (e :: r)
      | some p => exact takeExponentDigits_spec hdigits he
    · exact hnone (e :: r)
  · exact hnone []

theorem takeNumber_spec (text : Text) :
    (takeNumber text).1 ++ (takeNumber text).2 = text ∧
      ∀ c ∈ (takeNumber text).1, IsNumberChar c := by
  obtain ⟨hf, hfc⟩ := takeFraction_spec (text.dropWhile Char.isDigit)
  obtain ⟨he, hec⟩ := takeExponent_spec (takeFraction (text.dropWhile Char.isDigit)).2
  refine ⟨?_, ?_⟩
  · show text.takeWhile Char.isDigit ++ (takeFraction _).1 ++ (takeExponent _).1 ++
      (takeExponent _).2 = text
    rw [append_assoc, he, append_assoc, hf, takeWhile_append_dropWhile]
  · intro c hc
    rcases mem_append.1 hc with hc | hc
    · rcases mem_append.1 hc with hc | hc
      · exact numberChar_of_digits hc
      · exact hfc c hc
    · exact hec c hc

theorem matchLiteralKind_shape (h : matchLiteralKind prev text = some u) :
    MatchShape (fun c => c.isDigit) IsNumberChar prev text u := by
  obtain ⟨hnumber, hchars⟩ := takeNumber_spec text
  unfold matchLiteralKind at h
  split at h
  · cases h
  · next hprev =>
    split at h
    · next hdigit =>
      split at h
      · next s hs =>
        unfold matchSymbol at h
        split at h
        · obtain rfl := Option.some.inj h
          refine ⟨hprev, ⟨s.dropWhile isWord, ?_⟩, ?_, ?_⟩
          · conv_rhs => rw [← hnumber, hs, ← takeWhile_append_dropWhile (p := isWord) (l := s)]
            simp only [KindUse.text, append_assoc, append_nil, cons_append, nil_append]
          · cases text with
            | nil => cases hdigit
            | cons c r => exact ⟨c, r, rfl, isWord_of_digit hdigit, hdigit⟩
          · unfold KindUse.text
            rw [append_nil]
            apply wordStarts_append
            · apply wordStarts_of_forall
              intro c hc _
              rcases mem_append.1 hc with hc | hc
              · exact hchars c hc
              · exact isNumberChar_of_mem (l := ['_']) (by decide) hc
            · apply wordStarts_word
              · rw [List.getLast?_append]
                show isWord '_'
                decide
              · exact fun c hc => mem_takeWhile_imp hc
        · cases h
      · cases h
    · cases h

/-! ## Matches that begin words -/

/-- A match whose first character begins no word inside of an earlier match begins behind it. -/
theorem MatchShape.before {H H' Q Q' : Char → Prop} {code : Text} {p q : ℕ}
    {u v : KindUse} (hu : MatchShape H Q ((code.take p).getLast?.or none) (code.drop p) u)
    (hv : MatchShape H' Q' ((code.take q).getLast?.or none) (code.drop q) v)
    (hne : ∀ c, H' c → ¬ Q c) (hpq : p ≤ q) :
    p + u.text.length ≤ q := by
  by_contra hlt
  obtain ⟨k, rfl⟩ := Nat.exists_eq_add_of_le hpq
  obtain ⟨rest, hrest⟩ := hu.inText
  obtain ⟨c, r, hc, hword, hH⟩ := hv.head
  rw [← drop_drop, ← hrest] at hc
  refine hne c hH (hu.starts.at (by omega) hc hword ?_)
  rw [hrest]
  have hfresh := hv.fresh
  rwa [take_add, List.getLast?_append, Option.or_assoc] at hfresh

/-! ## The edits of a line -/

variable {aliases : List (Name × ℤ)} {body : Line}

theorem mem_resolve {uses : List (ℕ × KindUse)} {e : KindEdit} :
    e ∈ resolve aliases uses ↔ (e.start, e.use) ∈ uses ∧
      aliases.lookup e.use.name = some e.number := by
  unfold resolve
  rw [mem_filterMap]
  constructor
  · rintro ⟨m, hm, he⟩
    obtain ⟨n, hn, rfl⟩ := Option.map_eq_some_iff.1 he
    exact ⟨hm, hn⟩
  · rintro ⟨hm, hn⟩
    exact ⟨(e.start, e.use), hm, by rw [hn]; rfl⟩

theorem kindUses_matchAt {m : ℕ × KindUse} (h : m ∈ kindUses re body) :
    re.matchHead (((lineCode body).take m.1).getLast?.or none) ((lineCode body).drop m.1) =
      some m.2 := by
  obtain ⟨k, -, hk, hmatch⟩ := Pattern.mem_finditer (mem_filter.1 h).1
  rw [Nat.zero_add] at hk
  rw [← Pattern.matchAt_eq, hk]
  exact hmatch

theorem overlaps_eq_false {e f : KindEdit} : overlaps e f = false ↔
    e.stop ≤ f.start ∨ f.stop ≤ e.start := by
  unfold overlaps
  rw [Bool.not_eq_false', Bool.or_eq_true, decide_eq_true_eq, decide_eq_true_eq]

/-- The edits of one rule do not overlap. -/
theorem resolve_pairwise (aliases : List (Name × ℤ)) (body : Line) (re : Pattern Char KindUse)
    (hwidth : ∀ u, re.width u = u.text.length) :
    (resolve aliases (kindUses re body)).Pairwise fun e f => overlaps f e = false := by
  unfold resolve kindUses
  refine List.Pairwise.filterMap _ ?_
    ((Pattern.finditer_pairwise 0 0 none (lineCode body)).filter _)
  intro m m' hm e he e' he'
  obtain ⟨n, -, rfl⟩ := Option.map_eq_some_iff.1 he
  obtain ⟨n', -, rfl⟩ := Option.map_eq_some_iff.1 he'
  rw [hwidth] at hm
  exact overlaps_eq_false.2 (Or.inr hm)

/-- A literal overlaps no match of a keyword. -/
theorem literal_apart
    (hshape : ∀ {prev text u}, re.matchHead prev text = some u →
      MatchShape IsKeywordLetter (fun c => ¬ c.isDigit) prev text u) {m k : ℕ × KindUse}
    (hm : m ∈ kindUses literalKindRe body) (hk : k ∈ kindUses re body) :
    m.1 + m.2.text.length ≤ k.1 ∨ k.1 + k.2.text.length ≤ m.1 := by
  have hm' := matchLiteralKind_shape (kindUses_matchAt hm)
  have hk' := hshape (kindUses_matchAt hk)
  rcases Nat.le_total m.1 k.1 with h | h
  · exact Or.inl (hm'.before hk' (fun c hc hn => hn hc) h)
  · exact Or.inr (hk'.before hm' (fun c hc hn => hn hc) h)

/-- **The edits of a line**: every place of an alias, but for a `REAL(x)` whose keyword an edit of
`KIND =` has. -/
theorem mem_lineEdits {e : KindEdit} :
    e ∈ lineEdits aliases body ↔ aliases.lookup e.use.name = some e.number ∧
      ((e.start, e.use) ∈ kindUses kindEqRe body ∨ (e.start, e.use) ∈ kindUses literalKindRe body ∨
        (e.start, e.use) ∈ kindUses typeParenRe body ∧
          ∀ f ∈ resolve aliases (kindUses kindEqRe body), overlaps e f = false) := by
  have hkind := resolve_pairwise aliases body kindEqRe fun _ => rfl
  have htype := resolve_pairwise aliases body typeParenRe fun _ => rfl
  have hliteral := resolve_pairwise aliases body literalKindRe fun _ => rfl
  -- nothing keeps a literal out
  have hfree : ∀ q : List KindEdit, (∀ f ∈ q, (f.start, f.use) ∈ kindUses kindEqRe body ∨
      (f.start, f.use) ∈ kindUses typeParenRe body) →
        ∀ g ∈ resolve aliases (kindUses literalKindRe body),
        q.any (overlaps g) = false := by
    intro q hq g hg
    rw [any_eq_false]
    intro f hf
    have hapart : g.stop ≤ f.start ∨ f.stop ≤ g.start := by
      rcases hq f hf with h | h
      · exact literal_apart matchKindEq_shape (mem_resolve.1 hg).1 h
      · exact literal_apart matchTypeParen_shape (mem_resolve.1 hg).1 h
    rw [overlaps_eq_false.2 hapart]
    exact Bool.false_ne_true
  unfold lineEdits
  rw [keepApart_append, keepApart_append, keepApart_of_pairwise hkind, keepApart_of_pairwise htype,
    keepApart_of_pairwise hliteral]
  simp only [any_nil, Bool.not_false, filter_true, nil_append]
  rw [mem_append, mem_append, mem_filter, mem_filter, mem_resolve, mem_resolve, mem_resolve,
    Bool.not_eq_true', Bool.not_eq_true', any_eq_false]
  constructor
  · rintro ((⟨hm, hn⟩ | ⟨⟨hm, hn⟩, hq⟩) | ⟨⟨hm, hn⟩, -⟩)
    · exact ⟨hn, Or.inl hm⟩
    · exact ⟨hn, Or.inr (Or.inr ⟨hm, fun f hf => Bool.eq_false_iff.2 (hq f hf)⟩)⟩
    · exact ⟨hn, Or.inr (Or.inl hm)⟩
  · rintro ⟨hn, hm | hm | ⟨hm, hq⟩⟩
    · exact Or.inl (Or.inl ⟨hm, hn⟩)
    · refine Or.inr ⟨⟨hm, hn⟩, hfree _ ?_ e (mem_resolve.2 ⟨hm, hn⟩)⟩
      intro f hf
      rcases mem_append.1 hf with hf | hf
      · exact Or.inl (mem_resolve.1 hf).1
      · exact Or.inr (mem_resolve.1 (mem_filter.1 hf).1).1
    · exact Or.inl (Or.inr ⟨⟨hm, hn⟩, fun f hf => Bool.eq_false_iff.1 (hq f hf)⟩)

end Preprocess.KindParameters

/-
# What kind normalisation keeps

A name is replaced if the table has it and no line of the source is seen to bind it.
-/

namespace Preprocess.KindParameters

open Substitution

/-! ## The names that are dropped from the table -/

variable {nm : Name}

theorem mem_setDefault {out : List (Name × ℕ)} {b : Name × ℕ} :
    nm ∈ (setDefault out b).map Prod.fst ↔ nm ∈ out.map Prod.fst ∨ nm = b.1 := by
  unfold setDefault
  split
  · next h =>
    have hmem : b.1 ∈ out.map Prod.fst := by
      obtain ⟨p, hp, hb⟩ := lookup_isSome_iff.1 h
      exact mem_map.2 ⟨p, hp, (beq_iff_eq.1 hb).symm⟩
    constructor
    · exact Or.inl
    · rintro (h | rfl)
      · exact h
      · exact hmem
  · rw [map_append, mem_append]
    simp

theorem mem_foldl_setDefault {bs out : List (Name × ℕ)} :
    nm ∈ (bs.foldl setDefault out).map Prod.fst ↔ nm ∈ out.map Prod.fst ∨ ∃ b ∈ bs, nm = b.1 := by
  induction bs generalizing out with
  | nil => simp
  | cons b bs ih =>
    rw [foldl_cons, ih, mem_setDefault, or_assoc]
    simp

variable {R : Reading} {kindMap : List (List Char × Option ℤ)} {passthrough : Bool}

theorem mem_localKindBindings :
    nm ∈ (localKindBindings R.text).map Prod.fst ↔ R.SeenOnLine nm := by
  unfold localKindBindings Reading.SeenOnLine
  rw [mem_foldl_setDefault]
  simp only [map_nil, not_mem_nil, false_or, mem_filterMap]
  constructor
  · rintro ⟨b, ⟨raw, hraw, hb⟩, rfl⟩
    exact ⟨raw, hraw, b.2, hb⟩
  · rintro ⟨raw, hraw, v, hb⟩
    exact ⟨(nm, v), ⟨raw, hraw, hb⟩, rfl⟩

theorem lookup_openAliases {n : ℤ} :
    (openAliases kindMap R.text).lookup nm = some n ↔ (kindAliases kindMap).lookup nm = some n ∧
      ¬ R.SeenOnLine nm := by
  unfold openAliases
  rw [AssocLists.lookup_filter fun x => !decide (x ∈ (localKindBindings R.text).map Prod.fst)]
  by_cases hseen : R.SeenOnLine nm
  · rw [if_neg (by simp [mem_localKindBindings.2 hseen])]
    simp [hseen]
  · rw [if_pos (by simpa using fun h => hseen (mem_localKindBindings.1 h))]
    simp [hseen]

/-! ## The result and the edits -/

theorem bodyOf_append (line : Line) : bodyOf line ++ line.drop (bodyOf line).length = line := by
  have hp : bodyOf line <+: line := by
    refine ⟨(line.reverse.takeWhile fun c => decide (c.toNat ∈ [10, 13])).reverse, ?_⟩
    rw [bodyOf, ← reverse_append, takeWhile_append_dropWhile, reverse_reverse]
  exact prefix_iff_eq_append.1 hp

/-- A line without edits stays as it is. -/
theorem rewriteLine_nil (line : Line) : rewriteLine [] line = line := by
  show lineCode (bodyOf line) ++ _ ++ _ = line
  rw [lineCode, take_append_drop, bodyOf_append]

theorem lineEdits_nil (body : Line) : lineEdits [] body = [] := by
  have hnone : ∀ uses, resolve [] uses = [] := by
    intro uses
    unfold resolve
    rw [filterMap_eq_nil_iff]
    intro m _
    rfl
  unfold lineEdits
  rw [hnone, hnone, hnone]
  rfl

/-- The result is the source with the edits of each of its lines made. -/
theorem normalizeKindParameters_eq (source : Text) (kindMap : List (List Char × Option ℤ))
    (passthrough : Bool) :
    normalizeKindParameters source kindMap passthrough =
      ((splitKeepFrom [] source).map fun line => rewriteLine
        (editsOf source kindMap passthrough line) line).flatten := by
  have hsame : ∀ edits : Line → List KindEdit, (∀ line, edits line = []) →
      ((splitKeepFrom [] source).map fun line => rewriteLine (edits line) line).flatten =
        source := by
    intro edits hedits
    simp only [hedits, rewriteLine_nil, map_id']
    exact flatten_splitKeepFrom [] source
  unfold normalizeKindParameters editsOf
  cases passthrough with
  | true => exact (hsame _ fun _ => rfl).symm
  | false =>
    simp only [Bool.false_eq_true, if_false]
    split
    · next hnil =>
      rw [hnil]
      exact (hsame _ fun line => lineEdits_nil (bodyOf line)).symm
    · rfl

/-! ## The edits of a source -/

namespace Reading

/-- The edits of a line are made at the kinds that are reached, for the names that are not seen. -/
theorem mem_editsOf (hpass : passthrough = false) {line : Line} {e : KindEdit} :
    e ∈ editsOf R.text kindMap passthrough line ↔
      (kindAliases kindMap).lookup e.use.name = some e.number ∧ ¬ R.SeenOnLine e.use.name ∧
        R.Reached kindMap (bodyOf line) (e.start, e.use) := by
  have hqueue : (∀ f ∈ resolve (openAliases kindMap R.text) (kindUses kindEqRe (bodyOf line)),
    overlaps e f = false) ↔
      ∀ k ∈ kindUses kindEqRe (bodyOf line), ((kindAliases kindMap).lookup k.2.name).isSome →
        ¬ R.SeenOnLine k.2.name → k.1 + k.2.text.length ≤ e.start ∨
          e.start + e.use.text.length ≤ k.1 := by
    constructor
    · intro h k hk hsome hseen
      obtain ⟨n, hn⟩ := Option.isSome_iff_exists.1 hsome
      have hf := h ⟨k.1, k.2, n⟩ (mem_resolve.2 ⟨hk, lookup_openAliases.2 ⟨hn, hseen⟩⟩)
      exact (overlaps_eq_false.1 hf).symm
    · intro h f hf
      obtain ⟨hk, hn⟩ := mem_resolve.1 hf
      obtain ⟨hn, hseen⟩ := lookup_openAliases.1 hn
      exact overlaps_eq_false.2 (h _ hk (Option.isSome_of_eq_some hn) hseen).symm
  unfold editsOf
  rw [hpass, if_neg Bool.false_ne_true, mem_lineEdits, lookup_openAliases, hqueue, and_assoc]
  rfl

theorem editsOf_passthrough {line : Line} : editsOf R.text kindMap true line = [] := rfl

/-- **Exactly when kind normalisation keeps what the names denote**: it is off, or each alias that
the source binds to another integer and uses as a kind is bound by the first entity of the first
such `INTEGER` declaration of some line, and so is each variable with the name of an alias that
stands in a conversion. -/
theorem keepsDenotations_iff (R : Reading) (kindMap : List (List Char × Option ℤ))
    (passthrough : Bool) :
    R.KeepsDenotations kindMap passthrough ↔
      passthrough = true ∨ R.ParametersSeen kindMap ∧ R.VariablesSeen kindMap := by
  cases passthrough with
  | true =>
    refine ⟨fun _ => Or.inl rfl, fun _ l line _ e he => ?_⟩
    rw [editsOf_passthrough] at he
    cases he
  | false =>
    constructor
    · intro h
      refine Or.inr ⟨?_, ?_⟩
      · rintro nm v n hdecl hn hne ⟨line, hline, m, hreached, rfl⟩
        by_contra hseen
        obtain ⟨l, hl⟩ := List.mem_iff_getElem?.1 hline
        have he : (⟨m.1, m.2, n⟩ : KindEdit) ∈ editsOf R.text kindMap false line :=
          (mem_editsOf rfl).2 ⟨hn, hseen, hreached⟩
        exact hne ((h l line hl _ he).1 v hdecl)
      · rintro nm n hdecl hn ⟨l, line, hl, m, hreached, rfl, hword, hcall⟩
        by_contra hseen
        have he : (⟨m.1, m.2, n⟩ : KindEdit) ∈ editsOf R.text kindMap false line :=
          (mem_editsOf rfl).2 ⟨hn, hseen, hreached⟩
        have hnot := (h l line hl _ he).2 hdecl hword
        rw [hcall] at hnot
        cases hnot
    · rintro (h | ⟨hparams, hvars⟩)
      · cases h
      · intro l line hl e he
        obtain ⟨hn, hseen, hreached⟩ := (mem_editsOf rfl).1 he
        refine ⟨fun v hdecl => ?_, fun hdecl hword => ?_⟩
        · by_contra hne
          exact hseen (hparams _ v _ hdecl hn hne ⟨line, List.mem_of_getElem? hl, _, hreached, rfl⟩)
        · rw [Bool.eq_false_iff]
          intro hcall
          exact hseen (hvars _ _ hdecl hn ⟨l, line, hl, _, hreached, rfl, hword, hcall⟩)

/-! ## The second entity of a declaration -/

/-- `integer, parameter :: a = 1, wp = 4`, and a kind `wp` below it. -/
def secondEntity : Reading where
  text := "integer, parameter :: a = 1, wp = 4\nreal(wp) :: x\n".toList
  units := [[[("a".toList, .integerParameter 1), ("wp".toList, .integerParameter 4)],
    [("x".toList, .variable)]]]
  conversionAt _ _ := false

/-- **The kind becomes 8.** -/
theorem not_keepsDenotations_secondEntity : ¬ secondEntity.KeepsDenotations [] false := by
  intro h
  have hedit : (⟨0, ⟨"real(".toList, "wp".toList, ")".toList⟩, 8⟩ : KindEdit) ∈
      editsOf secondEntity.text [] false "real(wp) :: x\n".toList := by decide
  have hdecl : secondEntity.Declares "wp".toList (.integerParameter 4) := by
    refine ⟨_, List.mem_singleton.2 rfl, _, List.mem_cons_self, ?_⟩
    exact List.mem_cons_of_mem _ List.mem_cons_self
  exact absurd ((h 1 _ rfl _ hedit).1 4 hdecl) (by decide)

end Reading

end Preprocess.KindParameters
