/-
# What the scan for array reads does to a text

Compositional rules for `find_array_subscripts`: a word that no bracket follows and a
character outside a word are copied, a bracketed name is replaced as a whole, and both
the bracket walk and the comma split pass over a balanced text.
-/
import DaceFortran.Builder.ArraySubscripts

open List CharClasses

namespace Subscripts

/-! ## Characters -/

variable {c : Char} {t : Text}

theorem isOpen_iff : isOpen c = true ↔ c = '(' ∨ c = '[' ∨ c = '{' := by
  simp [isOpen]

theorem isClose_iff : isClose c = true ↔ c = ')' ∨ c = ']' ∨ c = '}' := by
  simp [isClose]

theorem isOpen_eq_false_of_isWord (h : isWord c = true) : isOpen c = false := by
  by_contra hc
  rcases isOpen_iff.1 (by simpa using hc) with rfl | rfl | rfl <;> exact absurd h (by decide)

theorem isClose_eq_false_of_isWord (h : isWord c = true) : isClose c = false := by
  by_contra hc
  rcases isClose_iff.1 (by simpa using hc) with rfl | rfl | rfl <;> exact absurd h (by decide)

theorem ne_comma_of_isWord (h : isWord c = true) : c ≠ ',' := by
  rintro rfl
  exact absurd h (by decide)

/-- A character of an operator: outside words, brackets and commas. -/
def isOperator (c : Char) : Bool := !isWord c && !isOpen c && !isClose c && decide (c ≠ ',')

/-- A text at whose start no word goes on and no subscript opens. -/
def Stops (rest : Text) : Prop := ∀ c ∈ rest.head?, isWord c = false ∧ c ≠ '['

theorem stops_nil : Stops [] := by
  simp [Stops]

theorem stops_cons {rest : Text} (hw : isWord c = false) (hb : c ≠ '[') :
    Stops (c :: rest) := by
  simpa [Stops] using ⟨hw, hb⟩

/-! ## The bracket walk -/

/-- The bracket walk passes over the text. -/
def Balanced (t : Text) : Prop :=
  ∀ d rest, 0 < d → takeInner d (t ++ rest) = (takeInner d rest).map fun p => (t ++ p.1, p.2)

theorem balanced_nil : Balanced [] := by
  intro d rest _
  simp

theorem balanced_append {t u : Text} (ht : Balanced t) (hu : Balanced u) :
    Balanced (t ++ u) := by
  intro d rest hd
  rw [append_assoc, ht d _ hd, hu d rest hd, Option.map_map]
  congr 1
  funext p
  simp

theorem balanced_char (ho : isOpen c = false) (hc : isClose c = false) :
    Balanced [c] := by
  intro d rest _
  simp [takeInner, ho, hc]

theorem balanced_of_forall (h : ∀ c ∈ t, isOpen c = false ∧ isClose c = false) :
    Balanced t := by
  induction t with
  | nil => exact balanced_nil
  | cons c cs ih =>
      have hc := h c (by simp)
      exact balanced_append (balanced_char hc.1 hc.2) (ih fun x hx => h x (by simp [hx]))

/-- A balanced text in brackets is balanced. -/
theorem balanced_wrap {o c : Char} (ho : isOpen o = true) (hc : isClose c = true)
    (hco : isOpen c = false) (ht : Balanced t) : Balanced (o :: t ++ [c]) := by
  intro d rest hd
  have h0 : d ≠ 0 := by omega
  simp only [cons_append, append_assoc, nil_append, takeInner, ho, if_true]
  rw [ht (d + 1) (c :: rest) (by omega)]
  simp [takeInner, hco, hc, h0, Option.map_map, Function.comp_def]

/-- The walk ends at the bracket behind a balanced text. -/
theorem takeInner_balanced (ht : Balanced t) (rest : Text) :
    takeInner 1 (t ++ ']' :: rest) = some (t, rest) := by
  rw [ht 1 _ (by omega)]
  have h : takeInner 1 (']' :: rest) = some ([], rest) := by
    simp [takeInner, show isOpen ']' = false by decide, show isClose ']' = true by decide]
  rw [h]
  simp

/-! ## The comma split -/

/-- A text in front of the first part. -/
def prependHead (t : Text) : List Text → List Text
  | [] => [t]
  | u :: us => (t ++ u) :: us

theorem consHead_eq (c : Char) (ts : List Text) : consHead c ts = prependHead [c] ts := by
  cases ts <;> rfl

theorem prependHead_append (t u : Text) (ts : List Text) :
    prependHead (t ++ u) ts = prependHead t (prependHead u ts) := by
  cases ts <;> simp [prependHead]

/-- The comma split takes the text for a piece of one part, from that depth on. -/
def Unsplit (least : ℕ) (t : Text) : Prop :=
  ∀ d rest, least ≤ d → splitTop d (t ++ rest) = prependHead t (splitTop d rest)

variable {n : ℕ} {ts : List Text}

theorem Unsplit.mono {m : ℕ} (h : Unsplit m t) (hmn : m ≤ n) : Unsplit n t := by
  intro d rest hd
  exact h d rest (by omega)

theorem splitTop_ne_nil (d : ℕ) (t : Text) : splitTop d t ≠ [] := by
  induction t generalizing d with
  | nil => simp [splitTop]
  | cons c cs ih =>
      simp only [splitTop]
      split_ifs <;> simp only [consHead_eq, prependHead, ne_eq] <;>
        first | (split <;> simp) | simp

theorem unsplit_nil (n : ℕ) : Unsplit n [] := by
  intro d rest _
  cases h : splitTop d rest with
  | nil => exact absurd h (splitTop_ne_nil d rest)
  | cons t ts => simp [prependHead, h]

theorem unsplit_append {t u : Text} (ht : Unsplit n t) (hu : Unsplit n u) :
    Unsplit n (t ++ u) := by
  intro d rest hd
  rw [append_assoc, ht d _ hd, hu d rest hd, prependHead_append]

theorem unsplit_char (ho : isOpen c = false) (hc : isClose c = false)
    (hn : c ≠ ',' ∨ 0 < n) : Unsplit n [c] := by
  intro d rest hd
  have hcomma : ¬(c = ',' ∧ d = 0) := by
    rintro ⟨rfl, rfl⟩
    rcases hn with h | h
    · exact h rfl
    · omega
  simp [splitTop, ho, hc, hcomma, consHead_eq]

theorem unsplit_of_forall
    (h : ∀ c ∈ t, isOpen c = false ∧ isClose c = false ∧ c ≠ ',') : Unsplit n t := by
  induction t with
  | nil => exact unsplit_nil n
  | cons c cs ih =>
      have hc := h c (by simp)
      exact unsplit_append (unsplit_char hc.1 hc.2.1 (Or.inl hc.2.2))
        (ih fun x hx => h x (by simp [hx]))

/-- What stands in brackets is never split. -/
theorem unsplit_wrap {o c : Char} (ho : isOpen o = true) (hc : isClose c = true)
    (hco : isOpen c = false) (ht : Unsplit 1 t) : Unsplit n (o :: t ++ [c]) := by
  intro d rest _
  simp only [cons_append, append_assoc, nil_append, splitTop, ho, if_true]
  rw [ht (d + 1) (c :: rest) (by omega)]
  simp only [splitTop, hco, hc, Bool.false_eq_true, if_false, if_true, Nat.add_sub_cancel,
    consHead_eq, ← prependHead_append]
  simp

/-- The parts of a joined list are its texts. -/
theorem splitTop_joinWith (hne : ts ≠ []) (h : ∀ t ∈ ts, Unsplit 0 t) :
    splitTop 0 (joinWith [','] ts) = ts := by
  induction ts with
  | nil => exact absurd rfl hne
  | cons t us ih =>
      have ht := h t (by simp)
      cases us with
      | nil =>
          have := ht 0 [] (by omega)
          simpa [joinWith, splitTop, prependHead] using this
      | cons u us =>
          have hu := ih (by simp) fun x hx => h x (by simp [hx])
          have hcomma : splitTop 0 ([','] ++ joinWith [','] (u :: us)) = [] :: (u :: us) := by
            rw [singleton_append, splitTop, hu]
            simp [show isOpen ',' = false by decide, show isClose ',' = false by decide]
          rw [joinWith, append_assoc, ht 0 _ (by omega), hcomma]
          simp [prependHead]

theorem forall_joinWith {P : Text → Prop} (hnil : P []) (hcomma : P [','])
    (happ : ∀ t u, P t → P u → P (t ++ u)) (h : ∀ t ∈ ts, P t) :
    P (joinWith [','] ts) := by
  induction ts with
  | nil => exact hnil
  | cons t us ih =>
      cases us with
      | nil => exact h t (by simp)
      | cons u us =>
          exact happ _ _ (happ _ _ (h t (by simp)) hcomma) (ih fun x hx => h x (by simp [hx]))

/-! ## The strip of a part -/

/-- A text that neither starts nor ends with a blank. -/
structure Tight (t : Text) : Prop where
  head : ∃ c cs, t = c :: cs ∧ isSpace c = false
  last : ∃ c cs, t = cs ++ [c] ∧ isSpace c = false

theorem strip_tight (h : Tight t) : strip t = t := by
  obtain ⟨c, cs, hc, hcb⟩ := h.head
  obtain ⟨e, es, he, heb⟩ := h.last
  have hfront : t.dropWhile isSpace = t := by simp [hc, hcb]
  have hback : t.reverse.dropWhile isSpace = t.reverse := by simp [he, heb]
  rw [strip, hfront, hback, reverse_reverse]

theorem tight_append {t u v : Text} (ht : Tight t) (hv : Tight v) : Tight (t ++ u ++ v) := by
  obtain ⟨c, cs, rfl, hc⟩ := ht.head
  obtain ⟨e, es, rfl, he⟩ := hv.last
  exact ⟨⟨c, _, by simp; rfl, hc⟩, ⟨e, c :: cs ++ u ++ es, by simp, he⟩⟩

theorem tight_word (hne : t ≠ []) (h : ∀ c ∈ t, isWord c = true) : Tight t := by
  refine ⟨?_, ?_⟩
  · obtain ⟨c, cs, rfl⟩ := exists_cons_of_ne_nil hne
    exact ⟨c, cs, rfl, isSpace_eq_false_of_isWord (h c (by simp))⟩
  · refine ⟨t.getLast hne, t.dropLast, (dropLast_append_getLast hne).symm, ?_⟩
    exact isSpace_eq_false_of_isWord (h _ (getLast_mem hne))

theorem tight_char (h : isSpace c = false) : Tight [c] :=
  ⟨⟨c, [], rfl, h⟩, ⟨c, [], rfl, h⟩⟩

/-! ## The scan -/

section Scan

variable (known : Text → Bool) (out : Text → List Text → Text)

theorem scan_skip (t rest : Text) :
    scan known out t.length (t ++ rest) = scan known out 0 rest := by
  induction t with
  | nil => rfl
  | cons c cs ih => simpa [scan] using ih

theorem takeWhile_word_append {w rest : Text} (hw : ∀ c ∈ w, isWord c = true)
    (hrest : ∀ c ∈ rest.head?, isWord c = false) :
    (w ++ rest).takeWhile isWord = w ∧ (w ++ rest).dropWhile isWord = rest := by
  induction w with
  | nil =>
      cases rest with
      | nil => simp
      | cons c cs => simp [hrest c (by simp)]
  | cons c cs ih =>
      have := ih fun x hx => hw x (by simp [hx])
      simp [hw c (by simp), this]

/-- A character outside a word is copied. -/
theorem scan_char {c : Char} (hc : isWord c = false) (rest : Text) :
    scan known out 0 (c :: rest) = c :: scan known out 0 rest := by
  have h : subscriptAt known (c :: rest) = .none := by
    by_cases hb : c = '['
    · subst hb
      simp [subscriptAt, hc]
    · simp only [subscriptAt, takeWhile_cons, dropWhile_cons, hc, Bool.false_eq_true,
        if_false]
      split
      · rename_i heq
        exact absurd (List.cons.inj heq).1 hb
      · rfl
  rw [scan, h]

theorem scan_chars {t : Text} (ht : ∀ c ∈ t, isWord c = false) (rest : Text) :
    scan known out 0 (t ++ rest) = t ++ scan known out 0 rest := by
  induction t with
  | nil => rfl
  | cons c cs ih =>
      rw [cons_append, scan_char known out (ht c (by simp)),
        ih fun x hx => ht x (by simp [hx]), cons_append]

/-- **A word is copied**: no part of an identifier that opens no subscript is matched. -/
theorem scan_word {w rest : Text} (hw : ∀ c ∈ w, isWord c = true) (hrest : Stops rest) :
    scan known out 0 (w ++ rest) = w ++ scan known out 0 rest := by
  induction w with
  | nil => rfl
  | cons c cs ih =>
      have hsplit := takeWhile_word_append hw fun x hx => (hrest x hx).1
      have h : subscriptAt known (c :: cs ++ rest) = .none := by
        simp only [subscriptAt, hsplit]
        split
        · exact absurd rfl (hrest '[' (by simp)).2
        · rfl
      rw [cons_append] at h ⊢
      rw [scan, h, ih fun x hx => hw x (by simp [hx]), cons_append]

/-- **A read of a known array is replaced as a whole**, its subscripts handed on. -/
theorem scan_read {a : Text} {ts : List Text} (hstart : a.head?.any isStart = true)
    (ha : ∀ c ∈ a, isWord c = true) (hknown : known a = true) (hne : ts ≠ [])
    (hbal : ∀ t ∈ ts, Balanced t) (huns : ∀ t ∈ ts, Unsplit 0 t) (htight : ∀ t ∈ ts, Tight t)
    (rest : Text) :
    scan known out 0 (a ++ '[' :: joinWith [','] ts ++ ']' :: rest) =
      out a ts ++ scan known out 0 rest := by
  have hjoin : Balanced (joinWith [','] ts) :=
    forall_joinWith balanced_nil (balanced_char (by decide) (by decide))
      (fun _ _ => balanced_append) hbal
  have hstrip : ts.map strip = ts := by
    conv_rhs => rw [← map_id ts]
    exact map_congr_left fun t ht => strip_tight (htight t ht)
  obtain ⟨hword, hdrop⟩ := @takeWhile_word_append a
    ('[' :: joinWith [','] ts ++ ']' :: rest) ha (by simp; decide)
  cases a with
  | nil => simp at hstart
  | cons c cs =>
      have hwidth : (c :: cs ++
        ('[' :: joinWith [','] ts ++ ']' :: rest)).length - rest.length - 1 =
          (cs ++ ('[' :: joinWith [','] ts ++ [']'])).length := by
        simp only [length_append, length_cons, length_nil]
        omega
      have h : subscriptAt known (c :: cs ++ ('[' :: joinWith [','] ts ++ ']' :: rest)) =
          .found ((c :: cs ++ ('[' :: joinWith [','] ts ++ ']' :: rest)).length - rest.length)
            (c :: cs) ts := by
        simp only [subscriptAt, hword, hdrop]
        simp only [cons_append, hstart, hknown, Bool.and_self, if_true,
          takeInner_balanced hjoin rest, splitTop_joinWith hne huns, hstrip]
      have htail : cs ++ ('[' :: joinWith [','] ts ++ ']' :: rest) =
          (cs ++ ('[' :: joinWith [','] ts ++ [']'])) ++ rest := by
        simp
      rw [append_assoc, cons_append]
      rw [cons_append] at h hwidth
      rw [scan, h]
      show out (c :: cs) ts ++ scan known out _ _ = _
      rw [hwidth, htail, scan_skip]

end Scan

end Subscripts
