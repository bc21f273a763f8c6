/-
# The lowered subscripts read the same element

`fortran_subscripts_to_dace` returns the text of the 0-based expression that is meant:
every array reference is lowered once, along its aliases and through its subscripts.
**That expression has the value of the Fortran expression in every store**, when the
sections keep the index; a section that starts above the dummy's lower bound is read at
the wrong element.
-/
import DaceFortran.Builder.SubscriptExpr
import Mathlib.Data.List.GetD

open List

namespace Subscripts

/-! ## Following the aliases -/

namespace Program

variable {p : Program}

variable {subs : List Expr} {dims : List Section} {n : ℕ}

variable {arr source : Name} {Q : Expr → Prop} {es : List Expr}

theorem resolve_of_plain (h : p.decl arr.text = some .plain)
    (n : ℕ) : p.resolve n arr subs = (arr, subs) := by
  cases n with
  | zero => rfl
  | succ n => rw [resolve, h]

theorem resolve_of_section
    (h : p.decl arr.text = some (.sectionOf source dims)) (n : ℕ) :
    p.resolve (n + 1) arr subs = p.resolve n source (spliceTree dims subs) := by
  rw [resolve, h]

theorem length_spliceTree (dims : List Section) (subs : List Expr) :
    (spliceTree dims subs).length = dims.length := by
  simp [spliceTree]

/-- A spliced subscript is one of the reference or the index of a dropped dimension. -/
theorem forall_spliceTree
    (hdims : ∀ k shift, .dim k shift ∈ dims → k < subs.length)
    (hindex : ∀ e, .index e ∈ dims → Q e) (hsubs : ∀ e ∈ subs, Q e) :
    ∀ e ∈ spliceTree dims subs, Q e := by
  intro e he
  obtain ⟨d, hd, rfl⟩ := mem_map.1 he
  cases d with
  | dim k shift =>
      have hk := hdims k shift hd
      show Q (subs.getD k (.lit 0))
      rw [getD_eq_getElem _ _ hk]
      exact hsubs _ (getElem_mem hk)
  | index e => exact hindex e hd

/-- Induction along the chain of aliases behind a reference: a property that holds at
the storage and goes from the source to its section holds of every reference. -/
theorem resolve_induction {motive : ℕ → Name → List Expr → Prop}
    (plain : ∀ n arr subs, p.decl arr.text = some .plain → p.arity arr.text = subs.length →
      motive n arr subs)
    (sect : ∀ n arr source dims subs, p.decl arr.text = some (.sectionOf source dims) →
      p.arity arr.text = subs.length → p.rank arr.text ≤ n + 1 →
      motive n source (spliceTree dims subs) → motive (n + 1) arr subs) :
    ∀ n arr subs, (p.decl arr.text).isSome → p.arity arr.text = subs.length →
      p.rank arr.text ≤ n → motive n arr subs := by
  intro n
  induction n with
  | zero =>
      intro arr subs hsome harity hrank
      obtain ⟨d, hd⟩ := Option.isSome_iff_exists.1 hsome
      cases d with
      | plain => exact plain 0 arr subs hd harity
      | sectionOf source dims =>
          have := (p.source_fits _ source dims hd).2.1
          omega
  | succ n ih =>
      intro arr subs hsome harity hrank
      obtain ⟨d, hd⟩ := Option.isSome_iff_exists.1 hsome
      cases d with
      | plain => exact plain _ arr subs hd harity
      | sectionOf source dims =>
          obtain ⟨hs, hlt, hlen⟩ := p.source_fits _ source dims hd
          apply sect n arr source dims subs hd harity hrank
          apply ih source _ hs
          · rw [length_spliceTree, hlen]
          · omega

/-- The aliases end at an array of its own storage, with a subscript for each dimension. -/
theorem resolve_plain (n : ℕ) (arr : Name) (subs : List Expr)
    (hsome : (p.decl arr.text).isSome) (harity : p.arity arr.text = subs.length)
    (hrank : p.rank arr.text ≤ n) :
    p.decl (p.resolve n arr subs).1.text = some .plain ∧
      p.arity (p.resolve n arr subs).1.text = (p.resolve n arr subs).2.length := by
  revert hsome harity hrank
  apply resolve_induction (p := p) (motive := fun n arr subs =>
    p.decl (p.resolve n arr subs).1.text = some .plain ∧
      p.arity (p.resolve n arr subs).1.text = (p.resolve n arr subs).2.length)
  · intro n arr subs hd harity
    rw [resolve_of_plain hd]
    exact ⟨hd, harity⟩
  · intro n arr source dims subs hd _ _ ih
    rw [resolve_of_section hd]
    exact ih

theorem forall_resolve {r : ℕ}
    (hindex : ∀ a source dims e, p.rank a < r → p.decl a = some (.sectionOf source dims) →
      .index e ∈ dims → Q e)
    (n : ℕ) (arr : Name) (subs : List Expr)
    (hsome : (p.decl arr.text).isSome) (harity : p.arity arr.text = subs.length)
    (hrank : p.rank arr.text ≤ n) (hr : p.rank arr.text < r) (hsubs : ∀ e ∈ subs, Q e) :
    ∀ e ∈ (p.resolve n arr subs).2, Q e := by
  revert hsome harity hrank hr hsubs
  have key := resolve_induction (p := p) (motive := fun n arr subs =>
    p.rank arr.text < r → (∀ e ∈ subs, Q e) → ∀ e ∈ (p.resolve n arr subs).2, Q e)
    (by
      intro n arr subs hd _ _ hsubs
      rw [resolve_of_plain hd]
      exact hsubs)
    (by
      intro n arr source dims subs hd harity _ ih hr hsubs
      rw [resolve_of_section hd]
      apply ih
      · exact Nat.lt_trans (p.source_fits _ source dims hd).2.1 hr
      · apply forall_spliceTree _ (fun e he => hindex _ source dims e hr hd he) hsubs
        intro k shift hk
        rw [← harity]
        exact p.dim_fits _ source dims k shift hd hk)
  intro hsome harity hrank
  exact key n arr subs hsome harity hrank

theorem splice_slot
    (hdims : ∀ k shift, .dim k shift ∈ dims → k < subs.length) :
    splice (dims.map slot) (subs.map text) = (spliceTree dims subs).map text := by
  rw [splice, spliceTree, map_map, map_map]
  apply map_congr_left
  intro d hd
  cases d with
  | dim k shift =>
      have hk := hdims k shift hd
      simp [slot, hk]
  | index e => rfl

/-- `resolve_section_alias` on the texts follows the same aliases. -/
theorem resolveSectionAlias_text (n : ℕ) (arr : Name) (subs : List Expr)
    (hsome : (p.decl arr.text).isSome) (harity : p.arity arr.text = subs.length)
    (hrank : p.rank arr.text ≤ n) :
    resolveSectionAlias p.arrays n arr.text (subs.map text) =
      ((p.resolve n arr subs).1.text, (p.resolve n arr subs).2.map text) := by
  revert hsome harity hrank
  apply resolve_induction (p := p) (motive := fun n arr subs =>
    resolveSectionAlias p.arrays n arr.text (subs.map text) =
      ((p.resolve n arr subs).1.text, (p.resolve n arr subs).2.map text))
  · intro n arr subs hd _
    rw [resolve_of_plain hd]
    cases n with
    | zero => rfl
    | succ n => simp [resolveSectionAlias, arrays, hd]
  · intro n arr source dims subs hd harity _ ih
    have hne : source.text ≠ arr.text := by
      intro heq
      have := (p.source_fits _ source dims hd).2.1
      rw [heq] at this
      omega
    have hdims : ∀ k shift, .dim k shift ∈ dims → k < subs.length := by
      intro k shift hk
      rw [← harity]
      exact p.dim_fits _ source dims k shift hd hk
    rw [resolve_of_section hd, ← ih, ← splice_slot hdims]
    simp [resolveSectionAlias, arrays, hd, hne]

theorem sourceIndex_spliceTree (hkeep : p.KeepsIndex) (s : Store p) {arr : Text}
    (hd : p.decl arr = some (.sectionOf source dims))
    (hdims : ∀ k shift, .dim k shift ∈ dims → k < subs.length) :
    s.sourceIndex dims (subs.map (value s s.read)) =
      (spliceTree dims subs).map (value s s.read) := by
  rw [Store.sourceIndex, spliceTree, map_map]
  apply map_congr_left
  intro d hmem
  cases d with
  | dim k shift =>
      have hk := hdims k shift hmem
      simp [hk, hkeep arr source dims k shift hd hmem]
  | index e => rfl

/-- A reference reads what the reference to the storage reads. -/
theorem read_resolve (hkeep : p.KeepsIndex) (s : Store p) (hs : s.Associated)
    (n : ℕ) (arr : Name) (subs : List Expr)
    (hsome : (p.decl arr.text).isSome) (harity : p.arity arr.text = subs.length)
    (hrank : p.rank arr.text ≤ n) :
    s.read arr.text (subs.map (value s s.read)) =
      s.read (p.resolve n arr subs).1.text
        ((p.resolve n arr subs).2.map (value s s.read)) := by
  revert hsome harity hrank
  apply resolve_induction (p := p) (motive := fun n arr subs =>
    s.read arr.text (subs.map (value s s.read)) =
      s.read (p.resolve n arr subs).1.text
        ((p.resolve n arr subs).2.map (value s s.read)))
  · intro n arr subs hd _
    rw [resolve_of_plain hd]
  · intro n arr source dims subs hd harity _ ih
    have hdims : ∀ k shift, .dim k shift ∈ dims → k < subs.length := by
      intro k shift hk
      rw [← harity]
      exact p.dim_fits _ source dims k shift hd hk
    rw [resolve_of_section hd, ← ih, hs.read_section _ source dims _ hd,
      sourceIndex_spliceTree hkeep s hd hdims]

/-! ## The text of the lowered expression -/

variable (p)

/-- `fortran_subscripts_to_dace` -/
abbrev code (n : ℕ) : Text → Text := fortranSubscriptsToDace p.arrays p.rank n

/-- The separator `_format_offset_subset` writes. -/
abbrev daceText : Expr → Text := render [',', ' ']

/-- The expression is lowered at that depth: its text to the text of the expression that
is meant, whatever follows, which reads descriptors only and has the same value. -/
structure Lowered (n : ℕ) (e : Expr) : Prop where
  text_eq : ∀ rest, Stops rest →
    p.code n (text e ++ rest) = daceText (p.lower n e) ++ p.code n rest
  plain : Every (fun b k => p.decl b = some .plain ∧ p.arity b = k) (p.lower n e)
  value_eq : ∀ s : Store p, s.Associated → value s s.elem (p.lower n e) = value s s.read e

/-- The expression is lowered at every sufficient depth. -/
def Lowers (e : Expr) : Prop := ∃ N, ∀ n, N ≤ n → p.Lowered (n + 1) e

theorem lowers_all (h : ∀ e ∈ es, p.Lowers e) :
    ∃ N, ∀ n, N ≤ n → ∀ e ∈ es, p.Lowered (n + 1) e := by
  induction es with
  | nil => exact ⟨0, by simp⟩
  | cons e es ih =>
      obtain ⟨M, hM⟩ := h e (by simp)
      obtain ⟨N, hN⟩ := ih fun x hx => h x (by simp [hx])
      refine ⟨max M N, fun n hn => ?_⟩
      exact forall_mem_cons.2 ⟨hM n (by omega), hN n (by omega)⟩

variable {p}

theorem code_char {c : Char} (hc : isWord c = false) (rest : Text) :
    p.code (n + 1) (c :: rest) = c :: p.code (n + 1) rest :=
  scan_char _ _ hc rest

theorem code_word {w rest : Text} (hw : ∀ c ∈ w, isWord c = true) (hrest : Stops rest) :
    p.code (n + 1) (w ++ rest) = w ++ p.code (n + 1) rest :=
  scan_word _ _ hw hrest

/-- The arguments of a call are lowered one by one. -/
theorem code_joined (h : ∀ e ∈ es, p.Lowered (n + 1) e) {rest : Text}
    (hrest : Stops rest) :
    p.code (n + 1) (joinWith [','] (es.map text) ++ rest) =
      joinWith [','] (es.map fun e => daceText (p.lower (n + 1) e)) ++ p.code (n + 1) rest := by
  induction es with
  | nil => rfl
  | cons e es ih =>
      have he := h e (by simp)
      have hes := ih fun x hx => h x (by simp [hx])
      cases es with
      | nil => exact he.text_eq rest hrest
      | cons f fs =>
          simp only [map_cons, joinWith, append_assoc, singleton_append] at hes ⊢
          rw [cons_append, he.text_eq _ (stops_cons (by decide) (by decide)),
            code_char (by decide), hes, cons_append]

theorem lowered_lit (n m : ℕ) : p.Lowered (n + 1) (.lit m) where
  text_eq _ hrest := code_word (fun _ hc => isWord_of_mem_toString hc) hrest
  plain := trivial
  value_eq _ _ := rfl

theorem lowered_var (n : ℕ) (x : Name) : p.Lowered (n + 1) (.var x) where
  text_eq _ hrest := code_word x.word hrest
  plain := trivial
  value_eq _ _ := rfl

theorem lowered_neg {e : Expr} (h : p.Lowered (n + 1) e) :
    p.Lowered (n + 1) (.neg e) where
  text_eq rest hrest := by
    show p.code (n + 1) ('-' :: (text e ++ rest)) = '-' :: (daceText (p.lower (n + 1) e) ++ _)
    rw [code_char (by decide), h.text_eq rest hrest]
  plain := h.plain
  value_eq s hs := by
    show -value s s.elem (p.lower (n + 1) e) = -value s s.read e
    rw [h.value_eq s hs]

theorem lowered_paren {e : Expr} (h : p.Lowered (n + 1) e) :
    p.Lowered (n + 1) (.paren e) where
  text_eq rest hrest := by
    show p.code (n + 1) ('(' :: text e ++ [')'] ++ rest) =
      '(' :: daceText (p.lower (n + 1) e) ++ [')'] ++ _
    rw [append_assoc, cons_append, code_char (by decide), singleton_append,
      h.text_eq _ (stops_cons (by decide) (by decide)), code_char (by decide)]
    simp
  plain := h.plain
  value_eq s hs := h.value_eq s hs

theorem lowered_op {o : Operator} {l r : Expr} (hl : p.Lowered (n + 1) l)
    (hr : p.Lowered (n + 1) r) : p.Lowered (n + 1) (.op o l r) where
  text_eq rest hrest := by
    show p.code (n + 1) (text l ++ o.text ++ text r ++ rest) =
      daceText (p.lower (n + 1) l) ++ o.text ++ daceText (p.lower (n + 1) r) ++ _
    have hstop : Stops (o.text ++ (text r ++ rest)) := by
      obtain ⟨c, cs, hc⟩ := exists_cons_of_ne_nil o.nonempty
      have hcl := o.classes (c := c) (by simp [hc])
      rw [hc]
      apply stops_cons hcl.1
      rintro rfl
      exact absurd hcl.2.1 (by decide)
    rw [append_assoc, append_assoc, hl.text_eq _ hstop,
      show p.code (n + 1) (o.text ++ (text r ++ rest)) = o.text ++ p.code (n + 1) (text r ++ rest)
        from scan_chars _ _ (fun c hc => (o.classes hc).1) _,
      hr.text_eq rest hrest]
    simp
  plain := ⟨hl.plain, hr.plain⟩
  value_eq s hs := by
    show s.oper _ (value s s.elem (p.lower (n + 1) l)) (value s s.elem (p.lower (n + 1) r)) = _
    rw [hl.value_eq s hs, hr.value_eq s hs]
    rfl

theorem lower_call (n : ℕ) (f : Name) (args : List Expr) :
    p.lower (n + 1) (.call f args) = .call f (args.map (p.lower (n + 1))) := by
  rw [lower, lowerRefs, lowerRefsOf_eq_map]
  rfl

theorem lowered_call {f : Name} {args : List Expr}
    (h : ∀ e ∈ args, p.Lowered (n + 1) e) : p.Lowered (n + 1) (.call f args) where
  text_eq rest hrest := by
    rw [lower_call, text, daceText, render, render, renderEach_eq_map, renderEach_eq_map,
      append_assoc, append_assoc, cons_append, append_assoc,
      code_word f.word (stops_cons (by decide) (by decide)), code_char (by decide),
      singleton_append, code_joined h (stops_cons (by decide) (by decide)),
      code_char (by decide), map_map]
    simp [Function.comp_def]
  plain := by
    rw [lower_call, Every, everyOf_iff]
    intro e he
    obtain ⟨x, hx, rfl⟩ := mem_map.1 he
    exact (h x hx).plain
  value_eq s hs := by
    rw [lower_call, value, value, valueEach_eq_map, valueEach_eq_map, map_map]
    congr 1
    exact map_congr_left fun e he => (h e he).value_eq s hs

/-! ## An array reference -/

theorem lower_ref (n : ℕ) (arr : Name) (subs : List Expr) :
    p.lower (n + 1) (.ref arr subs) =
      .ref (p.resolve (p.rank arr.text) arr subs).1
        (offsets (p.resolve (p.rank arr.text) arr subs).1
          ((p.resolve (p.rank arr.text) arr subs).2.map (p.lower n))) := rfl

/-- `_format_offset_subset` writes the offset subscripts. -/
theorem daceText_offsets (arr : Name) (subs : List Expr) :
    daceText (.ref arr (offsets arr subs)) =
      formatOffsetSubset arr.text (subs.map daceText) := by
  rw [daceText, render, formatOffsetSubset, renderEach_eq_map]
  congr 4
  apply ext_getElem
  · simp [offsets]
  · intro k _ _
    simp [offsets, render, minus, offsetName]

theorem value_offsets (s : Store p) (read : Text → List ℤ → ℤ) (arr : Name)
    (subs : List Expr) :
    valueEach s read (offsets arr subs) =
      s.zeroBased arr.text (subs.map (value s read)) := by
  rw [valueEach_eq_map]
  apply ext_getElem
  · simp [offsets, Store.zeroBased]
  · intro k _ _
    simp [offsets, Store.zeroBased, value, minus, offsetName, s.minus_eq, s.offset_eq]

theorem every_offsets {ok : Text → ℕ → Prop}
    (h : ∀ e ∈ subs, Every ok e) : EveryOf ok (offsets arr subs) := by
  rw [everyOf_iff]
  intro e he
  obtain ⟨k, hk, rfl⟩ := mem_mapIdx.1 he
  exact ⟨h (subs[k]) (getElem_mem hk), trivial⟩

theorem lowered_ref (hkeep : p.KeepsIndex)
    (hsome : (p.decl arr.text).isSome) (harity : p.arity arr.text = subs.length)
    (h : ∀ e ∈ (p.resolve (p.rank arr.text) arr subs).2, p.Lowered (n + 1) e) :
    p.Lowered (n + 2) (.ref arr subs) := by
  obtain ⟨hplain, hlen⟩ := resolve_plain (p.rank arr.text) arr subs hsome harity (Nat.le_refl _)
  refine ⟨?_, ?_, ?_⟩
  · intro rest hrest
    have hne : subs.map text ≠ [] := by
      intro hnil
      have h0 := p.arity_pos _ hsome
      rw [map_eq_nil_iff.1 hnil] at harity
      simp only [length_nil] at harity
      omega
    have hshape : ∀ t ∈ subs.map text, Shape t := by
      intro t ht
      obtain ⟨e, -, rfl⟩ := mem_map.1 ht
      exact shape_text e
    have hparts : (p.resolve (p.rank arr.text) arr subs).2.map (fun e => p.code (n + 1) (text e)) =
        (p.resolve (p.rank arr.text) arr subs).2.map fun e => daceText (p.lower (n + 1) e) := by
      apply map_congr_left
      intro e he
      have := (h e he).text_eq [] stops_nil
      simpa [code, fortranSubscriptsToDace, scan] using this
    -- the scan rewrites the reference as a whole, its subscripts one level lower
    have hscan := scan_read (fun a => (p.arrays a).isSome)
      (fun a parts => formatOffsetSubset (resolveSectionAlias p.arrays (p.rank a) a parts).1
        ((resolveSectionAlias p.arrays (p.rank a) a parts).2.map (p.code (n + 1))))
      arr.start arr.word (by simpa [arrays] using hsome) hne
      (fun t ht => (hshape t ht).balanced) (fun t ht => (hshape t ht).unsplit)
      (fun t ht => (hshape t ht).tight) rest
    rw [lower_ref, daceText_offsets, map_map]
    rw [resolveSectionAlias_text _ _ _ hsome harity (Nat.le_refl _), map_map] at hscan
    have htext : text (.ref arr subs) ++ rest =
        arr.text ++ '[' :: joinWith [','] (subs.map text) ++ ']' :: rest := by
      rw [text, render, renderEach_eq_map]
      simp
    rw [htext]
    refine hscan.trans ?_
    congr 2
  · rw [lower_ref, Every]
    refine ⟨⟨hplain, by simp [offsets, hlen]⟩, every_offsets ?_⟩
    intro e he
    obtain ⟨x, hx, rfl⟩ := mem_map.1 he
    exact (h x hx).plain
  · intro s hs
    rw [lower_ref, value, value, value_offsets, valueEach_eq_map, map_map,
      read_resolve hkeep s hs _ _ _ hsome harity (Nat.le_refl _), hs.read_plain _ _ hplain]
    congr 2
    exact map_congr_left fun e he => (h e he).value_eq s hs

/-! ## Every expression of the program -/

/-- The references of the expression are to arrays of the program below the rank. -/
abbrev Below (p : Program) (r : ℕ) (e : Expr) : Prop :=
  Every (fun b n => (p.decl b).isSome ∧ p.arity b = n ∧ p.rank b < r) e

mutual
/-- An expression is lowered when the dropped indices of its sections are. -/
theorem lowers_of_indices (hkeep : p.KeepsIndex) {r : ℕ}
    (hindex : ∀ a source dims e, p.rank a < r → p.decl a = some (.sectionOf source dims) →
      .index e ∈ dims → p.Lowers e) : ∀ e : Expr, Below p r e → p.Lowers e
  | .lit m, _ => ⟨0, fun n _ => lowered_lit n m⟩
  | .var x, _ => ⟨0, fun n _ => lowered_var n x⟩
  | .ref arr subs, he => by
      rw [Below, Every] at he
      obtain ⟨⟨hsome, harity, hrank⟩, hsubs⟩ := he
      have hparts := forall_resolve hindex (p.rank arr.text) arr subs hsome harity
        (Nat.le_refl _) hrank (lowers_each hkeep hindex subs hsubs)
      obtain ⟨N, hN⟩ := p.lowers_all hparts
      refine ⟨N + 1, fun n hn => ?_⟩
      obtain ⟨m, rfl⟩ : ∃ m, n = m + 1 := ⟨n - 1, by omega⟩
      exact lowered_ref hkeep hsome harity (hN m (by omega))
  | .call f args, he => by
      rw [Below, Every] at he
      obtain ⟨N, hN⟩ := p.lowers_all (lowers_each hkeep hindex args he)
      exact ⟨N, fun n hn => lowered_call (hN n hn)⟩
  | .op o l r, he => by
      rw [Below, Every] at he
      obtain ⟨M, hM⟩ := lowers_of_indices hkeep hindex l he.1
      obtain ⟨N, hN⟩ := lowers_of_indices hkeep hindex r he.2
      exact ⟨max M N, fun n hn => lowered_op (hM n (by omega)) (hN n (by omega))⟩
  | .neg e, he => by
      rw [Below, Every] at he
      obtain ⟨N, hN⟩ := lowers_of_indices hkeep hindex e he
      exact ⟨N, fun n hn => lowered_neg (hN n hn)⟩
  | .paren e, he => by
      rw [Below, Every] at he
      obtain ⟨N, hN⟩ := lowers_of_indices hkeep hindex e he
      exact ⟨N, fun n hn => lowered_paren (hN n hn)⟩

theorem lowers_each (hkeep : p.KeepsIndex) {r : ℕ}
    (hindex : ∀ a source dims e, p.rank a < r → p.decl a = some (.sectionOf source dims) →
      .index e ∈ dims → p.Lowers e) :
    ∀ es : List Expr, EveryOf (fun b n => (p.decl b).isSome ∧ p.arity b = n ∧ p.rank b < r) es →
      ∀ e ∈ es, p.Lowers e
  | [], _ => by simp
  | e :: es, he => by
      rw [EveryOf] at he
      exact forall_mem_cons.2
        ⟨lowers_of_indices hkeep hindex e he.1, lowers_each hkeep hindex es he.2⟩
end

/-- The dropped indices of a section read arrays below it, so the rank carries the induction. -/
theorem lowers_of_below (hkeep : p.KeepsIndex) (r : ℕ) :
    ∀ e : Expr, Below p r e → p.Lowers e := by
  induction r using Nat.strongRecOn with
  | _ r ih =>
      apply lowers_of_indices hkeep
      intro a source dims e ha hd he
      exact ih (p.rank a) ha e (p.index_fits a source dims e hd he)

mutual
theorem exists_below : ∀ e : Expr, p.Fits e → ∃ R, ∀ r, R ≤ r → Below p r e
  | .lit _, _ => ⟨0, fun _ _ => trivial⟩
  | .var _, _ => ⟨0, fun _ _ => trivial⟩
  | .ref arr subs, he => by
      rw [Fits, Every] at he
      obtain ⟨R, hR⟩ := exists_below_each subs he.2
      refine ⟨max R (p.rank arr.text + 1), fun r hr => ?_⟩
      exact ⟨⟨he.1.1, he.1.2, by omega⟩, hR r (by omega)⟩
  | .call f args, he => by
      rw [Fits, Every] at he
      exact exists_below_each args he
  | .op o l r, he => by
      rw [Fits, Every] at he
      obtain ⟨M, hM⟩ := exists_below l he.1
      obtain ⟨N, hN⟩ := exists_below r he.2
      exact ⟨max M N, fun k hk => ⟨hM k (by omega), hN k (by omega)⟩⟩
  | .neg e, he => by
      rw [Fits, Every] at he
      exact exists_below e he
  | .paren e, he => by
      rw [Fits, Every] at he
      exact exists_below e he

theorem exists_below_each : ∀ es : List Expr,
    EveryOf (fun b n => (p.decl b).isSome ∧ p.arity b = n) es →
      ∃ R, ∀ r, R ≤ r → EveryOf (fun b n => (p.decl b).isSome ∧ p.arity b = n ∧ p.rank b < r) es
  | [], _ => ⟨0, fun _ _ => trivial⟩
  | e :: es, he => by
      rw [EveryOf] at he
      obtain ⟨M, hM⟩ := exists_below e he.1
      obtain ⟨N, hN⟩ := exists_below_each es he.2
      exact ⟨max M N, fun k hk => ⟨hM k (by omega), hN k (by omega)⟩⟩
end

variable (p)

/-- The code lowers the expression to one that reads the same elements: its text is that
of the expression with every array reference lowered once, to a descriptor, and its
value in every store is the Fortran one. -/
def ReadsSame (e : Expr) : Prop :=
  ∃ N, ∀ n, N ≤ n →
    p.code n (text e) = daceText (p.lower n e) ∧
    Every (fun b k => p.decl b = some .plain ∧ p.arity b = k) (p.lower n e) ∧
    ∀ s : Store p, s.Associated → value s s.elem (p.lower n e) = value s s.read e

end Program

/-! ## A column behind an index array -/

def colName : Name := ⟨['c'], by decide, List.all_eq_true.1 (by decide)⟩

def baseName : Name := ⟨['a'], by decide, List.all_eq_true.1 (by decide)⟩

def indexName : Name := ⟨['k'], by decide, List.all_eq_true.1 (by decide)⟩

def loopName : Name := ⟨['j'], by decide, List.all_eq_true.1 (by decide)⟩

/-- The column `c` of `a` that `k(j)` names, its rows from the shift on. -/
def columnDims (shift : ℤ) : List Section :=
  [.dim 0 shift, .index (.ref indexName [.var loopName])]

def columnDecl (shift : ℤ) (t : Text) : Option Decl :=
  if t = ['c'] then some (.sectionOf baseName (columnDims shift))
  else if t = ['a'] ∨ t = ['k'] then some .plain else none

theorem columnDecl_section {shift : ℤ} {t : Text} {source : Name} {dims : List Section}
    (h : columnDecl shift t = some (.sectionOf source dims)) :
    t = ['c'] ∧ source = baseName ∧ dims = columnDims shift := by
  unfold columnDecl at h
  split_ifs at h with hc
  · cases h
    exact ⟨hc, rfl, rfl⟩
  · cases h

def columnProgram (shift : ℤ) : Program where
  decl := columnDecl shift
  arity t := if t = ['a'] then 2 else 1
  rank t := if t = ['c'] then 1 else 0
  arity_pos t _ := by
    show 0 < if t = ['a'] then 2 else 1
    split_ifs <;> omega
  source_fits t source dims h := by
    obtain ⟨rfl, rfl, rfl⟩ := columnDecl_section h
    exact ⟨rfl, by decide, rfl⟩
  dim_fits t source dims k shift' h hk := by
    obtain ⟨rfl, rfl, rfl⟩ := columnDecl_section h
    simp only [columnDims, List.mem_cons, Section.dim.injEq, reduceCtorEq, List.not_mem_nil,
      or_false] at hk
    rw [hk.1]
    decide
  index_fits t source dims e h he := by
    obtain ⟨rfl, rfl, rfl⟩ := columnDecl_section h
    simp only [columnDims, List.mem_cons, Section.index.injEq, reduceCtorEq, List.not_mem_nil,
      or_false, false_or] at he
    subst he
    exact ⟨⟨rfl, rfl, by decide⟩, trivial, trivial⟩

/-- `c(1)` -/
def columnRead : Expr := .ref colName [.lit 1]

theorem columnRead_fits (shift : ℤ) : (columnProgram shift).Fits columnRead :=
  ⟨⟨rfl, rfl⟩, trivial, trivial⟩

/-- A store where `a` is allocated from `0` and every array holds the row index. -/
def rowStore : Store (columnProgram (-1)) where
  scalar _ := 0
  func _ _ := 0
  oper _ x y := x - y
  lower _ _ := 0
  elem _ idx := idx.getD 0 0
  read t idx := if t = ['c'] then idx.getD 0 0 - 1 else idx.getD 0 0
  minus_eq _ _ := rfl
  offset_eq _ _ := rfl

theorem rowStore_associated : rowStore.Associated where
  read_plain t idx h := by
    have hc : t ≠ ['c'] := by
      rintro rfl
      have h' : columnDecl (-1) ['c'] = some .plain := h
      simp [columnDecl] at h'
    cases idx with
    | nil => simp [rowStore, hc, Store.zeroBased]
    | cons i is => simp [rowStore, hc, Store.zeroBased]
  read_section t source dims idx h := by
    obtain ⟨rfl, rfl, rfl⟩ := columnDecl_section h
    rfl

end Subscripts
