/-
# All names in their order

After the turns of some names, what is left of a read are its arrays up to the first of these names.
A read whose outermost array had its turn is one word with the number of the occurrences found
before.
-/
import DaceFortran.TaskletReads.RewriteReads

open List

namespace TaskletReads

/-! ## The turn of a scalar -/

def Read.mapWords (f : Tok → Tok) : Read → Read
  | .bare nm => .bare nm
  | .flat nm sub => .flat nm (sub.map f)
  | .via nm pre inner post => .via nm (pre.map f) (inner.mapWords f) (post.map f)

theorem names_mapWords (f : Tok → Tok) (r : Read) : (r.mapWords f).names = r.names := by
  induction r with
  | bare nm => rfl
  | flat nm sub => rfl
  | via nm pre inner post ih => rw [Read.mapWords, Read.names, Read.names, ih]

theorem words_mapWords (f : Tok → Tok) (r : Read) : (r.mapWords f).words = r.words.map f := by
  induction r with
  | bare nm => rfl
  | flat nm sub => rfl
  | via nm pre inner post ih =>
    rw [Read.mapWords, Read.words, Read.words, ih, map_append, map_append]

theorem level_map (sc : Name) (d : ℕ) (e : List Tok) :
    level d (e.map (scalarWord sc)) = level d e := by
  induction e generalizing d with
  | nil => rfl
  | cons t e ih =>
    cases t with
    | name s =>
      by_cases h : s = sc
      · subst h
        simpa [scalarWord, level] using ih d
      · simpa [scalarWord, level, h] using ih d
    | rsq =>
      simp only [map_cons, scalarWord, level, reduceCtorEq, if_false]
      split_ifs
      · rfl
      · exact ih _
    | rpar =>
      simp only [map_cons, scalarWord, level, reduceCtorEq, if_false]
      split_ifs
      · rfl
      · exact ih _
    | _ => exact ih _

theorem lsq_mem_map {sc : Name} {e : List Tok} : .lsq ∈ e.map (scalarWord sc) ↔ .lsq ∈ e := by
  rw [mem_map]
  constructor
  · rintro ⟨t, ht, h⟩
    unfold scalarWord at h
    split_ifs at h
    rwa [← h]
  · exact fun h => ⟨.lsq, h, rfl⟩

theorem Read.Balanced.mapWords {sc : Name} {r : Read} (h : r.Balanced) :
    (r.mapWords (scalarWord sc)).Balanced := by
  induction r with
  | bare nm => trivial
  | flat nm sub =>
    exact ⟨(level_map sc 1 sub).trans h.1, fun hmem => h.2 (lsq_mem_map.1 hmem)⟩
  | via nm pre inner post ih =>
    refine ⟨?_, fun hmem => h.2.1 ?_, ih h.2.2⟩
    · rw [← map_append, level_map]
      exact h.1
    · rw [← map_append] at hmem
      exact lsq_mem_map.1 hmem

theorem rewriteScalar_append (sc : Name) (e e' : List Tok) :
    rewriteScalar sc (e ++ e') = rewriteScalar sc e ++ rewriteScalar sc e' := map_append

theorem rewriteScalar_read {sc : Name} {r : Read} (h : sc ∉ r.names) :
    rewriteScalar sc r.text = (r.mapWords (scalarWord sc)).text := by
  induction r with
  | bare nm =>
    have hne : nm ≠ sc := fun h' => h (by simp [Read.names, h'])
    simp [rewriteScalar, Read.text, Read.mapWords, scalarWord, hne]
  | flat nm sub =>
    have hne : nm ≠ sc := fun h' => h (by simp [Read.names, h'])
    simp [rewriteScalar, Read.text, Read.mapWords, scalarWord, hne]
  | via nm pre inner post ih =>
    have hne : nm ≠ sc := fun h' => h (by simp [Read.names, h'])
    have hinner := ih fun h' => h (by simp [Read.names, h'])
    unfold rewriteScalar at hinner
    simp [rewriteScalar, Read.text, Read.mapWords, scalarWord, hne, hinner]

/-! ## What is left after some turns -/

section Turns

variable (arrays scalars order : List Name)

/-- What of a read is left at the array's turn. -/
def above (nm : Name) (L : List Name) : List Name :=
  L.takeWhile fun y => y ∉ order.takeWhile fun z => z ≠ nm

/-- The occurrences of the array found in reads. -/
def number (seen : List (List Name)) (nm : Name) : ℕ :=
  (seen.filter fun L => nm ∈ above order nm L).length

/-- A word outside the subscripts after some turns. -/
def settle (done : List Name) : Tok → Tok
  | .name s => if s ∈ scalars ∧ s ∈ done then .name (inName s) else .name s
  | t => t

/-- The parts after the turns of `done` beside those of the expression, behind reads of the names
`seen`. -/
inductive State (done : List Name) : List (List Name) → List Item → List Item → Prop
  | nil (seen : List (List Name)) : State done seen [] []
  | word {seen : List (List Name)} {t : Tok} {I J : List Item} (hlsq : t ≠ .lsq)
      (harray : ∀ nm ∈ arrays, t ≠ .name nm) (h : State done seen I J) :
      State done seen (.word t :: I) (.word (settle scalars done t) :: J)
  | replaced {seen : List (List Name)} {r : Read} {I J : List Item} (hdone : r.name ∈ done)
      (h : State done (seen ++ [r.names]) I J) :
      State done seen (.read r :: I)
        (.word (.name (occName r.name (number order seen r.name))) :: J)
  | left {seen : List (List Name)} {r r' : Read} {I J : List Item} (hdone : r.name ∉ done)
      (hnames : r'.names = r.names.takeWhile fun y => y ∉ done) (hbal : r'.Balanced)
      (hwords : ∀ nm ∈ arrays, .name nm ∉ r'.words) (h : State done (seen ++ [r.names]) I J) :
      State done seen (.read r :: I) (.read r' :: J)

variable {arrays scalars order}

variable {I J : List Item} {seen : List (List Name)} {done rest : List Name} {nm : Name}

theorem head_textOf {done : List Name}
    (h : State arrays scalars order done seen I J) : (textOf J).head? ≠ some .lsq := by
  cases h with
  | nil => simp [textOf]
  | word hlsq harray h =>
    rename_i t I J
    have hword : settle scalars done t ≠ .lsq := by
      cases t with
      | name s =>
        simp only [settle]
        split_ifs <;> simp
      | lsq => exact absurd rfl hlsq
      | _ => simp [settle]
    simpa [textOf, Item.text] using hword
  | replaced hdone h => simp [textOf, Item.text]
  | left hdone hnames hbal hwords h =>
    rename_i r r' I J
    cases r' <;> simp [textOf, Item.text, Read.text]

theorem takeWhile_order (h : (done ++ nm :: rest).Nodup) :
    (done ++ nm :: rest).takeWhile (fun z => z ≠ nm) = done := by
  have hnot : ∀ z ∈ done, z ≠ nm := by
    rintro z hz rfl
    exact (disjoint_of_nodup_append h) hz mem_cons_self
  rw [takeWhile_append_of_pos fun z hz => by simpa using hnot z hz, takeWhile_cons_of_neg (by simp),
    append_nil]

theorem above_eq (h : (done ++ nm :: rest).Nodup) (L : List Name) :
    above (done ++ nm :: rest) nm L = L.takeWhile fun y => y ∉ done := by
  rw [above, takeWhile_order h]

theorem number_append (seen : List (List Name)) (L : List Name) (nm : Name) :
    number order (seen ++ [L]) nm = number order seen nm + if nm ∈
      above order nm L then 1 else 0 := by
  unfold number
  rw [filter_append, length_append]
  split_ifs with h <;> simp [h]

theorem textOf_cons (it : Item) (J : List Item) : textOf (it :: J) = it.text ++ textOf J := rfl

theorem inName_fresh {nm sc : Name} (h : ¬ ['_', 'i', 'n', '_'] <+: nm) : nm ≠ inName sc :=
  fun heq => h ⟨sc, heq.symm⟩

theorem occName_fresh {nm x : Name} {n : ℕ} (h : ¬ ['_', 'i', 'n', '_'] <+: nm) :
    nm ≠ occName x n :=
  fun heq => h ⟨_, by rw [heq, occName, inName, append_assoc]⟩

theorem settle_ne {done : List Name} {t : Tok} (harray : t ≠ .name nm)
    (hfresh : ¬ ['_', 'i', 'n', '_'] <+: nm) : settle scalars done t ≠ .name nm := by
  cases t with
  | name s =>
    simp only [settle]
    split_ifs
    · exact fun h => inName_fresh hfresh (by simpa using h.symm)
    · exact harray
  | _ => simp [settle]

/-- The turn of an array that occurs at most once in what is left of each read. -/
theorem State.array (horder : order = done ++ nm :: rest)
    (hnodup : order.Nodup) (harray : nm ∈ arrays) (hscalar : nm ∉ scalars)
    (hfresh : ∀ x ∈ arrays, ¬ ['_', 'i', 'n', '_'] <+: x)
    (h : State arrays scalars order done seen I J)
    (hclean : ∀ r, .read r ∈ I → (above order nm r.names).count nm ≤ 1) :
    ∃ J', rewriteArray nm 0 (number order seen nm) (textOf J) = textOf J' ∧
      State arrays scalars order (done ++ [nm]) seen I J' := by
  subst horder
  have hnm : nm ∉ done := fun hmem =>
    (disjoint_of_nodup_append hnodup) hmem mem_cons_self
  -- on the items; the occurrences are numbered over those in `seen`
  induction h with
  | nil seen => exact ⟨[], rfl, .nil seen⟩
  | word hlsq harrays h ih =>
    rename_i seen t I J
    obtain ⟨J', hJ', hstate⟩ := ih fun r hr => hclean r (mem_cons_of_mem _ hr)
    have hsettle : settle scalars (done ++ [nm]) t = settle scalars done t := by
      cases t with
      | name s =>
        have hs : s ∈ scalars → s ≠ nm := fun hs h => hscalar (h ▸ hs)
        simp only [settle, mem_append, mem_singleton]
        by_cases hs' : s ∈ scalars
        · simp [hs', hs hs']
        · simp [hs']
      | _ => rfl
    have hword : settle scalars done t ≠ .name nm :=
      settle_ne (harrays nm harray) (hfresh nm harray)
    refine ⟨.word (settle scalars done t) :: J', ?_, ?_⟩
    · rw [textOf_cons, textOf_cons, ← hJ']
      exact rewriteArray_pass hword _ _
    · rw [← hsettle]
      exact .word hlsq harrays hstate
  | replaced hdone h ih =>
    rename_i seen r I J
    obtain ⟨J', hJ', hstate⟩ := ih fun r' hr => hclean r' (mem_cons_of_mem _ hr)
    have hnumber : number (done ++ nm :: rest) (seen ++ [r.names]) nm =
        number (done ++ nm :: rest) seen nm := by
      obtain ⟨L, hL⟩ := name_eq_head r
      rw [number_append, above_eq hnodup, hL, takeWhile_cons_of_neg (by simp [hdone])]
      simp
    refine ⟨.word (.name (occName r.name (number (done ++ nm :: rest) seen r.name))) :: J', ?_,
      .replaced (mem_append_left _ hdone) hstate⟩
    rw [textOf_cons, textOf_cons, ← hJ', hnumber]
    refine rewriteArray_pass ?_ _ _
    exact fun h => occName_fresh (hfresh nm harray) (by simpa using h.symm)
  | left hdone hnames hbal hwords h ih =>
    rename_i seen r r' I J
    obtain ⟨J', hJ', hstate⟩ := ih fun r' hr => hclean r' (mem_cons_of_mem _ hr)
    have habove : above (done ++ nm :: rest) nm r.names = r'.names := by
      rw [above_eq hnodup, hnames]
    have hcount := hclean r mem_cons_self
    rw [habove] at hcount
    obtain ⟨it, hit, hown, hleft⟩ := rewrite_read r' hbal (hwords nm harray) hcount
      (number (done ++ nm :: rest) seen nm)
    have hname : r'.name = r.name := by
      obtain ⟨L, hL⟩ := name_eq_head r
      obtain ⟨L', hL'⟩ := name_eq_head r'
      rw [hL, hL', takeWhile_cons_of_pos (by simpa using hdone)] at hnames
      exact (List.cons.inj hnames).1
    have htext : rewriteArray nm 0 (number (done ++ nm :: rest) seen nm) (textOf (.read r' :: J)) =
        it.text ++ textOf J' := by
      have hnumber : (if nm ∈ r'.names then number (done ++ nm :: rest) seen nm + 1
          else number (done ++ nm :: rest) seen nm) =
          number (done ++ nm :: rest) (seen ++ [r.names]) nm := by
        rw [number_append, habove]
        split_ifs <;> rfl
      rw [textOf_cons, Item.text, hit _ (head_textOf h), hnumber, hJ']
    refine ⟨it :: J', htext, ?_⟩
    -- the read itself is replaced, or a load inside it at most
    by_cases hsame : r'.name = nm
    · have hsame' : r.name = nm := hname.symm.trans hsame
      rw [hown hsame]
      subst hsame'
      exact .replaced (by simp) hstate
    · obtain ⟨r'', rfl, hname'', hnames'', hbal'', hwords''⟩ := hleft hsame
      refine .left ?_ ?_ hbal'' ?_ hstate
      · rw [mem_append, mem_singleton, ← hname]
        rintro (h | h)
        · exact hdone (hname ▸ h)
        · exact hsame h
      · rw [hnames'', hnames, takeWhile_takeWhile]
        congr 1
        funext y
        simp [and_comm]
      · intro x hx hmem
        rcases hwords'' _ hmem with hmem | hmem
        · exact hwords x hx hmem
        · exact occName_fresh (hfresh x hx) (by simpa using hmem)

/-- The turn of a scalar. -/
theorem State.scalar {done : List Name} {sc : Name} (hscalar : sc ∈ scalars)
    (hfresh : ¬ ['_', 'i', 'n', '_'] <+: sc)
    (hfreshArrays : ∀ x ∈ arrays, ¬ ['_', 'i', 'n', '_'] <+: x)
    (h : State arrays scalars order done seen I J)
    (hreads : ∀ r, .read r ∈ I → sc ∉ r.names) :
    ∃ J', rewriteScalar sc (textOf J) = textOf J' ∧
      State arrays scalars order (done ++ [sc]) seen I J' := by
  induction h with
  | nil seen => exact ⟨[], rfl, .nil seen⟩
  | word hlsq harrays h ih =>
    rename_i seen t I J
    obtain ⟨J', hJ', hstate⟩ := ih fun r hr => hreads r (mem_cons_of_mem _ hr)
    have hsettle : scalarWord sc (settle scalars done t) = settle scalars (done ++ [sc]) t := by
      cases t with
      | name s =>
        by_cases hs : s = sc
        · subst hs
          simp only [settle, hscalar, true_and, mem_append, mem_singleton, or_true, if_true]
          split_ifs with hdone
          · rw [scalarWord, if_neg fun h => inName_fresh hfresh (by simpa using h.symm)]
          · rw [scalarWord, if_pos rfl]
        · have hmem : s ∈ done ++ [sc] ↔ s ∈ done := by simp [hs]
          simp only [settle, hmem]
          split_ifs
          · rw [scalarWord, if_neg fun h => inName_fresh hfresh (by simpa using h.symm)]
          · rw [scalarWord, if_neg (by simpa using hs)]
      | _ => rfl
    refine ⟨.word (settle scalars (done ++ [sc]) t) :: J', ?_, .word hlsq harrays hstate⟩
    rw [textOf_cons, textOf_cons, ← hJ', rewriteScalar_append, ← hsettle]
    rfl
  | replaced hdone h ih =>
    rename_i seen r I J
    obtain ⟨J', hJ', hstate⟩ := ih fun r hr => hreads r (mem_cons_of_mem _ hr)
    refine ⟨.word (.name (occName r.name (number order seen r.name))) :: J', ?_,
      .replaced (mem_append_left _ hdone) hstate⟩
    have hword : scalarWord sc (.name (occName r.name (number order seen r.name))) =
        .name (occName r.name (number order seen r.name)) :=
      if_neg fun h => occName_fresh hfresh (by simpa using h.symm)
    rw [textOf_cons, textOf_cons, ← hJ', rewriteScalar_append]
    simp [rewriteScalar, Item.text, hword]
  | left hdone hnames hbal hwords h ih =>
    rename_i seen r r' I J
    obtain ⟨J', hJ', hstate⟩ := ih fun r hr => hreads r (mem_cons_of_mem _ hr)
    have hr := hreads r mem_cons_self
    have hr' : sc ∉ r'.names := by
      rw [hnames]
      exact fun h => hr (takeWhile_subset _ h)
    refine ⟨.read (r'.mapWords (scalarWord sc)) :: J', ?_, .left ?_ ?_ hbal.mapWords ?_ hstate⟩
    · rw [textOf_cons, textOf_cons, ← hJ', rewriteScalar_append, Item.text, rewriteScalar_read hr']
      rfl
    · rw [mem_append, mem_singleton]
      rintro (h | h)
      · exact hdone h
      · obtain ⟨L, hL⟩ := name_eq_head r
        exact hr (by simp [hL, h])
    · have hsame : ∀ L : List Name, sc ∉ L → (L.takeWhile fun y => y ∉ done ++ [sc]) =
          L.takeWhile fun y => y ∉ done := by
        intro L hL
        induction L with
        | nil => rfl
        | cons y L ihL =>
          have hy : y ≠ sc := fun h => hL (by simp [h])
          have hrest := ihL fun h => hL (mem_cons_of_mem y h)
          simp only [takeWhile_cons, hrest]
          simp [hy]
      rw [names_mapWords, hnames, hsame _ hr]
    · intro x hx hmem
      rw [words_mapWords, mem_map] at hmem
      obtain ⟨t, ht, htx⟩ := hmem
      unfold scalarWord at htx
      split_ifs at htx
      · exact inName_fresh (hfreshArrays x hx) (by simpa using htx.symm)
      · exact hwords x hx (htx ▸ ht)

/-- In the array's turn one read that holds it twice leaves a closing bracket too many. -/
theorem State.nested (horder : order = done ++ nm :: rest)
    (hnodup : order.Nodup) (harray : nm ∈ arrays) (hfresh : ¬ ['_', 'i', 'n', '_'] <+: nm)
    (h : State arrays scalars order done seen I J)
    {r : Read} (hr : .read r ∈ I) (hcount : 2 ≤ (above order nm r.names).count nm) (n : ℕ) :
    net (rewriteArray nm 0 n (textOf J)) < net (textOf J) := by
  subst horder
  have hpass {t : Tok} {e : List Tok} (ht : t ≠ .name nm)
      (hlt : net (rewriteArray nm 0 n e) < net e) :
      net (rewriteArray nm 0 n (t :: e)) < net (t :: e) := by
    rw [rewriteArray_pass ht, net_cons, net_cons]
    omega
  induction h generalizing n with
  | nil seen => cases hr
  | word hlsq harrays h ih =>
    have hr := (mem_cons.1 hr).resolve_left (by simp)
    have hlt := ih hr n fun ht hlt => by
      rw [rewriteArray_pass ht, net_cons, net_cons]
      omega
    exact hpass (settle_ne (harrays nm harray) hfresh) hlt
  | replaced hdone h ih =>
    rename_i seen r₀ I J
    rcases mem_cons.1 hr with hr | hr
    · cases hr
      obtain ⟨L, hL⟩ := name_eq_head r
      rw [above_eq hnodup, hL, takeWhile_cons_of_neg (by simp [hdone])] at hcount
      simp at hcount
    · have hlt := ih hr n fun ht hlt => by
        rw [rewriteArray_pass ht, net_cons, net_cons]
        omega
      exact hpass (fun h => occName_fresh hfresh (by simpa using h.symm)) hlt
  | left hdone hnames hbal hwords h ih =>
    rename_i seen r₀ r' I J
    have habove : above (done ++ nm :: rest) nm r₀.names = r'.names := by
      rw [above_eq hnodup, hnames]
    by_cases htwice : 2 ≤ r'.names.count nm
    · exact net_rewrite_nested r' hbal (hwords nm harray) htwice n (textOf J)
    · have hr : .read r ∈ I := by
        refine (mem_cons.1 hr).resolve_left fun hr => ?_
        cases hr
        rw [habove] at hcount
        exact htwice hcount
      obtain ⟨it, hit, hown, hleft⟩ := rewrite_read r' hbal (hwords nm harray) (by omega) n
      have hnet : net it.text = 0 := by
        by_cases hsame : r'.name = nm
        · rw [hown hsame]
          rfl
        · obtain ⟨r'', rfl, -, -, hbal'', -⟩ := hleft hsame
          exact net_text hbal''
      have hlt := ih hr (if nm ∈ r'.names then n + 1 else n) fun ht hlt => by
        rw [rewriteArray_pass ht, net_cons, net_cons]
        omega
      rw [textOf_cons, Item.text, hit _ (head_textOf h), net_append, net_append,
        hnet, net_text hbal]
      omega

/-! ## The whole order -/

/-- What the names ask of the parts of an expression. -/
structure Names (arrays scalars order : List Name) (I : List Item) : Prop where
  nodup : order.Nodup
  mem : ∀ nm ∈ order, nm ∈ arrays ∨ nm ∈ scalars
  disjoint : ∀ nm ∈ arrays, nm ∉ scalars
  fresh : ∀ nm ∈ order, ¬ ['_', 'i', 'n', '_'] <+: nm
  freshArrays : ∀ nm ∈ arrays, ¬ ['_', 'i', 'n', '_'] <+: nm
  reads : ∀ r, .read r ∈ I → ∀ nm ∈ r.names, nm ∉ scalars

/-- A turn rewrites the parts its name stands in, unless a read holds the array twice. -/
theorem State.step
    (hnames : Names arrays scalars order I) (horder : order = done ++ nm :: rest)
    (h : State arrays scalars order done [] I J)
    (hclean : nm ∈ arrays → ∀ r, .read r ∈ I → (above order nm r.names).count nm ≤ 1) :
    ∃ J', rewriteName scalars (textOf J) nm = textOf J' ∧
      State arrays scalars order (done ++ [nm]) [] I J' := by
  have hmem : nm ∈ order := by rw [horder]; simp
  unfold rewriteName
  rcases hnames.mem nm hmem with harray | hscalar
  · rw [if_neg (hnames.disjoint nm harray)]
    exact h.array horder hnames.nodup harray (hnames.disjoint nm harray) hnames.freshArrays
      (hclean harray)
  · rw [if_pos hscalar]
    exact h.scalar hscalar (hnames.fresh nm hmem) hnames.freshArrays
      fun r hr hin => hnames.reads r hr nm hin hscalar

/-- Where no read holds an array twice at its turn, the text after all turns is that of the
parts. -/
theorem State.run {I : List Item} (hnames : Names arrays scalars order I)
    (hclean : ∀ nm ∈ order, nm ∈ arrays → ∀ r, .read r ∈ I → (above order nm r.names).count nm ≤ 1)
    (rest : List Name) : ∀ done J, order = done ++ rest → State arrays scalars order done [] I J →
    ∃ J', rest.foldl (rewriteName scalars) (textOf J) = textOf J' ∧
      State arrays scalars order order [] I J' := by
  induction rest with
  | nil =>
    intro done J horder h
    rw [append_nil] at horder
    exact ⟨J, rfl, horder ▸ h⟩
  | cons nm rest ih =>
    intro done J horder h
    have hmem : nm ∈ order := by rw [horder]; simp
    obtain ⟨J', hJ', hstate⟩ := h.step hnames horder (hclean nm hmem)
    have horder' : order = (done ++ [nm]) ++ rest := by rw [horder]; simp
    rw [foldl_cons, hJ']
    exact ih (done ++ [nm]) J' horder' hstate

/-- Otherwise a closing bracket is left over. -/
theorem State.run_nested {I : List Item} (hnames : Names arrays scalars order I)
    (rest : List Name) : ∀ done J, order = done ++ rest → State arrays scalars order done [] I J →
    (∃ nm ∈ rest, nm ∈ arrays ∧ ∃ r, .read r ∈ I ∧ 2 ≤ (above order nm r.names).count nm) →
    net (rest.foldl (rewriteName scalars) (textOf J)) < net (textOf J) := by
  induction rest with
  | nil =>
    rintro done J - - ⟨nm, hnm, -⟩
    cases hnm
  | cons nm rest ih =>
    intro done J horder h hnested
    have horder' : order = (done ++ [nm]) ++ rest := by rw [horder]; simp
    have hle := net_rewriteName_le scalars (textOf J) nm
    rw [foldl_cons]
    have hrest := net_rewrites_le scalars rest (rewriteName scalars (textOf J) nm)
    by_cases htwice : nm ∈ arrays ∧ ∃ r, .read r ∈ I ∧ 2 ≤ (above order nm r.names).count nm
    · obtain ⟨harray, r, hr, hcount⟩ := htwice
      have hlt : net (rewriteName scalars (textOf J) nm) < net (textOf J) := by
        rw [rewriteName, if_neg (hnames.disjoint nm harray)]
        exact h.nested horder hnames.nodup harray (hnames.freshArrays nm harray) hr hcount 0
      omega
    · have hclean : nm ∈ arrays → ∀ r, .read r ∈ I → (above order nm r.names).count nm ≤ 1 := by
        intro harray r hr
        by_contra hcount
        exact htwice ⟨harray, r, hr, by omega⟩
      obtain ⟨J', hJ', hstate⟩ := h.step hnames horder hclean
      have hlater : ∃ x ∈ rest, x ∈ arrays ∧ ∃ r, .read r ∈ I ∧
          2 ≤ (above order x r.names).count x := by
        obtain ⟨x, hx, hxs⟩ := hnested
        rcases mem_cons.1 hx with rfl | hx
        · exact absurd hxs htwice
        · exact ⟨x, hx, hxs⟩
      have hlt := ih (done ++ [nm]) J' horder' hstate hlater
      rw [hJ'] at hle ⊢
      omega

end Turns

end TaskletReads
