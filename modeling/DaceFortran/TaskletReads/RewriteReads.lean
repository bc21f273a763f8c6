/-
# Reads under the rewriting

While an array occurs at most once in what is left of a read, its turn replaces the occurrence with
all it holds by one word.  Where it occurs in its own subscript, a closing bracket is left over.
-/
import DaceFortran.TaskletReads.RewriteConnectors
import Mathlib.Data.List.TakeWhile
import Mathlib.Data.List.Nodup

open List

namespace TaskletReads

/-! ## The text of a read -/

theorem level_body {pre post body : List Tok} (h : level 1 (pre ++ post) = some 1)
    (hbody : ∀ d, 1 ≤ d → level d body = some d) : level 1 (pre ++ body ++ post) = some 1 := by
  rw [level_append] at h
  obtain ⟨k, hpre, hpost⟩ := Option.bind_eq_some_iff.1 h
  have hk := (level_spec le_rfl hpre).1
  rw [level_append, level_append, hpre, Option.bind_some, hbody k hk, Option.bind_some]
  exact hpost

variable {body : List Tok} {nm : Name}

theorem level_bracket (h : level 1 body = some 1) (nm : Name) {d : ℕ} (hd : 1 ≤ d) :
    level d (.name nm :: .lsq :: (body ++ [.rsq])) = some d := by
  have hshift := (level_spec le_rfl h).2.2.1 d
  have hbody : level (d + 1) body = some (d + 1) := by rwa [Nat.add_comm 1 d] at hshift
  show level (d + 1) (body ++ [.rsq]) = some d
  rw [level_append, hbody, Option.bind_some, level, if_neg (by omega)]
  rfl

variable (r : Read)

theorem level_text (hr : r.Balanced) : ∀ d, 1 ≤ d → level d r.text = some d := by
  induction r with
  | bare nm => exact fun d _ => rfl
  | flat nm sub => exact fun d hd => level_bracket hr.1 nm hd
  | via nm pre inner post ih =>
    exact fun d hd => level_bracket (level_body hr.1 (ih hr.2.2)) nm hd

theorem net_text {r : Read} (hr : r.Balanced) : net r.text = 0 := by
  have hnet := (level_spec le_rfl (level_text r hr 1 le_rfl)).2.1
  rw [hnet]
  omega

theorem swallowed_bracket (h : level 1 body = some 1) (r : List Tok) :
    swallowed (.lsq :: (body ++ .rsq :: r)) = body.length + 2 := by
  have hclosing := (level_spec le_rfl h).2.2.2 (.rsq :: r)
  have hone : closing 1 (.rsq :: r) = some 1 := rfl
  rw [hone] at hclosing
  simp only [swallowed, hclosing, Option.map_some]
  omega

theorem rewriteArray_text {e : List Tok} (he : ∀ t ∈ e, t ≠ .name nm) (n : ℕ)
    (r : List Tok) : rewriteArray nm 0 n (e ++ r) = e ++ rewriteArray nm 0 n r := by
  induction e with
  | nil => rfl
  | cons t e ih =>
    rw [cons_append, rewriteArray_pass (he t mem_cons_self),
      ih fun t' ht' => he t' (mem_cons_of_mem t ht'), cons_append]

theorem rewriteArray_over {e : List Tok} (he : ∀ t ∈ e, t ≠ .name nm) (n : ℕ)
    (r : List Tok) : rewriteArray nm e.length n (e ++ r) = rewriteArray nm 0 n r := by
  induction e with
  | nil => rfl
  | cons t e ih =>
    rw [cons_append, length_cons, rewriteArray_skip (he t mem_cons_self),
      ih fun t' ht' => he t' (mem_cons_of_mem t ht')]

theorem name_mem_text {r : Read} :
    .name nm ∈ r.text ↔ nm ∈ r.names ∨ .name nm ∈ r.words := by
  induction r with
  | bare x => simp [Read.text, Read.names, Read.words]
  | flat x sub => simp [Read.text, Read.names, Read.words]
  | via x pre inner post ih =>
    simp only [Read.text, Read.names, Read.words, mem_cons, mem_append, ih]
    grind

theorem name_eq_head : ∃ L, r.names = r.name :: L := by
  cases r with
  | bare x => exact ⟨[], rfl⟩
  | flat x sub => exact ⟨[], rfl⟩
  | via x pre inner post => exact ⟨inner.names, rfl⟩

/-! ## The turn of an array -/

/-- A part of an expression. -/
inductive Item
  | word (t : Tok)
  | read (r : Read)

def Item.text : Item → List Tok
  | .word t => [t]
  | .read r => r.text

def textOf (items : List Item) : List Tok := items.flatMap Item.text

/-- The occurrence of the array itself becomes one word. -/
theorem rewrite_own (hbody : level 1 body = some 1)
    (hfree : ∀ t ∈ body, t ≠ .name nm) (n : ℕ) (rest : List Tok) :
    rewriteArray nm 0 n (.name nm :: .lsq :: (body ++ [.rsq]) ++ rest) =
      .name (occName nm n) :: rewriteArray nm 0 (n + 1) rest := by
  have hshape : Tok.name nm :: .lsq :: (body ++ [.rsq]) ++ rest =
      .name nm :: (.lsq :: (body ++ .rsq :: rest)) := by simp
  have hlist : Tok.lsq :: (body ++ .rsq :: rest) = (.lsq :: (body ++ [.rsq])) ++ rest := by simp
  have hfree' : ∀ t ∈ Tok.lsq :: (body ++ [.rsq]), t ≠ .name nm := by
    intro t ht
    rcases mem_cons.1 ht with rfl | ht
    · simp
    · rcases mem_append.1 ht with ht | ht
      · exact hfree t ht
      · rw [mem_singleton.1 ht]
        simp
  have hover := rewriteArray_over hfree' (n + 1) rest
  rw [hshape, rewriteArray_match, swallowed_bracket hbody, hlist]
  rw [show (Tok.lsq :: (body ++ [.rsq])).length = body.length + 2 by simp] at hover
  rw [hover]

theorem rewrite_read (hr : r.Balanced) (hwords : .name nm ∉ r.words)
    (hcount : r.names.count nm ≤ 1) (n : ℕ) :
    ∃ it : Item, (∀ rest : List Tok, rest.head? ≠ some .lsq → rewriteArray nm 0 n (r.text ++ rest) =
        it.text ++ rewriteArray nm 0 (if nm ∈ r.names then n + 1 else n) rest) ∧
      (r.name = nm → it = .word (.name (occName nm n))) ∧
      (r.name ≠ nm → ∃ r' : Read, it = .read r' ∧ r'.name = r.name ∧
        r'.names = r.names.takeWhile (· ≠ nm) ∧ r'.Balanced ∧
        ∀ t ∈ r'.words, t ∈ r.words ∨ t = .name (occName nm n)) := by
  induction r with
  | bare x =>
    by_cases hx : x = nm
    · subst hx
      refine ⟨.word (.name (occName x n)), fun rest hrest => ?_, fun _ => rfl,
        fun h => absurd rfl h⟩
      have htext : (Read.bare x).text ++ rest = .name x :: rest := rfl
      have hswallowed : swallowed rest = 0 := by
        rcases rest with - | ⟨t, rest⟩
        · rfl
        · cases t <;> first | rfl | exact absurd rfl hrest
      rw [htext, rewriteArray_match, hswallowed, if_pos (by simp [Read.names])]
      rfl
    · refine ⟨.read (.bare x), fun rest _ => ?_, fun h => absurd h hx,
        fun _ => ⟨.bare x, rfl, rfl, ?_, hr,
        fun t ht => .inl ht⟩⟩
      · have hnot : nm ∉ (Read.bare x).names := by simpa [Read.names] using fun h => hx h.symm
        rw [if_neg hnot]
        exact rewriteArray_text (by simpa [Read.text] using hx) n rest
      · simp [Read.names, hx]
  | flat x sub =>
    have hfree : ∀ t ∈ sub, t ≠ .name nm := fun t ht h => hwords (h ▸ ht)
    by_cases hx : x = nm
    · subst hx
      refine ⟨.word (.name (occName x n)), fun rest _ => ?_, fun _ => rfl, fun h => absurd rfl h⟩
      rw [if_pos (by simp [Read.names])]
      exact rewrite_own hr.1 hfree n rest
    · refine ⟨.read (.flat x sub), fun rest _ => ?_, fun h => absurd h hx,
        fun _ => ⟨.flat x sub, rfl, rfl, ?_,
        hr, fun t ht => .inl ht⟩⟩
      · have hnot : nm ∉ (Read.flat x sub).names := by simpa [Read.names] using fun h => hx h.symm
        rw [if_neg hnot]
        refine rewriteArray_text (fun t ht h => ?_) n rest
        rw [h, name_mem_text] at ht
        exact ht.elim hnot hwords
      · simp [Read.names, hx]
  | via x pre inner post ih =>
    have hpre : ∀ t ∈ pre, t ≠ .name nm := fun t ht h => hwords (by simp [Read.words, ← h, ht])
    have hpost : ∀ t ∈ post, t ≠ .name nm := fun t ht h => hwords (by simp [Read.words, ← h, ht])
    have hinner : .name nm ∉ inner.words := fun h => hwords (by simp [Read.words, h])
    by_cases hx : x = nm
    · subst hx
      have hnames : x ∉ inner.names := by
        have hcount : (x :: inner.names).count x ≤ 1 := hcount
        rw [count_cons_self] at hcount
        exact count_eq_zero.1 (by omega)
      refine ⟨.word (.name (occName x n)), fun rest _ => ?_, fun _ => rfl, fun h => absurd rfl h⟩
      rw [if_pos (by simp [Read.names])]
      refine rewrite_own (level_body hr.1 (level_text inner hr.2.2)) (fun t ht h => ?_) n rest
      subst h
      rcases mem_append.1 ht with ht | ht
      · rcases mem_append.1 ht with ht | ht
        · exact hpre _ ht rfl
        · exact (name_mem_text.1 ht).elim hnames hinner
      · exact hpost _ ht rfl
    · have hcount' : inner.names.count nm ≤ 1 := by
        have hcount : (x :: inner.names).count nm ≤ 1 := hcount
        rwa [count_cons_of_ne (by simpa using hx)] at hcount
      obtain ⟨it, hit, hown, hleft⟩ := ih hr.2.2 hinner hcount'
      have hmem : nm ∈ (Read.via x pre inner post).names ↔ nm ∈ inner.names := by
        rw [Read.names, mem_cons]
        exact or_iff_right fun h => hx h.symm
      have hrewrite (rest : List Tok) :
          rewriteArray nm 0 n ((Read.via x pre inner post).text ++ rest) =
            .name x :: .lsq :: (pre ++ it.text ++ post ++ [.rsq]) ++
              rewriteArray nm 0 (if nm ∈ (Read.via x pre inner post).names then n + 1
                else n) rest := by
        have hshape : (Read.via x pre inner post).text ++ rest =
            (.name x :: .lsq :: pre) ++ (inner.text ++ ((post ++ [.rsq]) ++ rest)) := by
          simp [Read.text]
        have hhead : ((post ++ [Tok.rsq]) ++ rest).head? ≠ some .lsq := by
          rcases post with - | ⟨t, post⟩
          · simp
          · intro h
            have h : t = .lsq := by simpa using h
            exact hr.2.1 (by simp [h])
        rw [hshape, rewriteArray_text ?_, hit _ hhead, rewriteArray_text ?_]
        · simp only [hmem]
          simp
        · intro t ht h
          subst h
          rcases mem_append.1 ht with ht | ht
          · exact hpost _ ht rfl
          · simp at ht
        · intro t ht h
          subst h
          rcases mem_cons.1 ht with ht | ht
          · exact hx (by simpa using ht.symm)
          · exact hpre _ (by simpa using ht) rfl
      -- the load inside is the read of `nm` itself, or `nm` is further in
      by_cases hname : inner.name = nm
      · refine ⟨.read (.flat x (pre ++ .name (occName nm n) :: post)), fun rest _ => ?_,
          fun h => absurd h hx, fun _ => ⟨_, rfl, rfl, ?_, ?_, fun t ht => ?_⟩⟩
        · rw [hrewrite, hown hname]
          simp [Item.text, Read.text]
        · obtain ⟨L, hL⟩ := name_eq_head inner
          simp [Read.names, hL, hname, hx]
        · have hbody : level 1 (pre ++ [.name (occName nm n)] ++ post) = some 1 :=
            level_body hr.1 fun d _ => rfl
          rw [append_assoc] at hbody
          refine ⟨hbody, fun h => hr.2.1 ?_⟩
          simpa using h
        · simp only [Read.words, mem_append, mem_cons] at ht ⊢
          rcases ht with ht | ht | ht
          · exact .inl (.inl (.inl ht))
          · exact .inr ht
          · exact .inl (.inr ht)
      · obtain ⟨r', rfl, hname', hnames', hbal', hwords'⟩ := hleft hname
        refine ⟨.read (.via x pre r' post), fun rest _ => ?_, fun h => absurd h hx,
          fun _ => ⟨_, rfl, rfl, ?_, ⟨hr.1, hr.2.1, hbal'⟩, fun t ht => ?_⟩⟩
        · rw [hrewrite]
          rfl
        · simp [Read.names, hnames', hx]
        · simp only [Read.words, mem_append] at ht ⊢
          rcases ht with (ht | ht) | ht
          · exact .inl (.inl (.inl ht))
          · exact (hwords' t ht).imp_left fun h => .inl (.inr h)
          · exact .inl (.inr ht)

/-- An array in its own subscript leaves a closing bracket too many. -/
theorem net_rewrite_nested (hr : r.Balanced) (hwords : .name nm ∉ r.words)
    (hcount : 2 ≤ r.names.count nm) (n : ℕ) (rest : List Tok) :
    net (rewriteArray nm 0 n (r.text ++ rest)) < net (r.text ++ rest) := by
  induction r generalizing rest with
  | bare x =>
    have hle : [x].count nm ≤ 1 := count_le_length
    exact absurd (hcount.trans hle) (by omega)
  | flat x sub =>
    have hle : [x].count nm ≤ 1 := count_le_length
    exact absurd (hcount.trans hle) (by omega)
  | via x pre inner post ih =>
    have hinner : .name nm ∉ inner.words := fun h => hwords (by simp [Read.words, h])
    have hcount : 2 ≤ (x :: inner.names).count nm := hcount
    by_cases hx : x = nm
    · subst hx
      rw [count_cons_self] at hcount
      have hmem : .name x ∈ inner.text :=
        name_mem_text.2 (.inl (count_pos_iff.1 (by omega)))
      have hbody := level_body hr.1 (level_text inner hr.2.2)
      have hshape : (Read.via x pre inner post).text ++ rest =
          .name x :: .lsq :: (pre ++ inner.text ++ post ++ .rsq :: rest) := by simp [Read.text]
      have hmem' : Tok.name x ∈ pre ++ inner.text ++ post := by simp [hmem]
      generalize pre ++ inner.text ++ post = body at hbody hshape hmem'
      -- behind the opening bracket the array stands in what is passed over
      obtain ⟨-, hnet, -, hclosing⟩ := level_spec le_rfl hbody
      have hclosing : closing 1 (body ++ .rsq :: rest) = some (body.length + 1) := by
        rw [hclosing, Nat.add_comm]
        rfl
      obtain ⟨-, hends⟩ := closing_spec le_rfl hclosing
      have htake : .name x ∈ (body ++ .rsq :: rest).take (body.length + 1) := by
        rw [take_append, take_of_length_le (by omega)]
        exact mem_append_left _ hmem'
      have hlt := net_rewriteArray_lt x _ (body.length + 1) (n + 1) hends htake
      have hdrop : (body ++ .rsq :: rest).drop (body.length + 1) = rest := by
        rw [drop_append]
        simp
      rw [hdrop] at hlt
      rw [hshape, rewriteArray_match, swallowed_bracket hbody, rewriteArray_skip (by simp)]
      simp only [net_cons, net_append, Tok.weight, hnet]
      omega
    · rw [count_cons_of_ne (by simpa using hx)] at hcount
      have hpre : ∀ t ∈ Tok.name x :: .lsq :: pre, t ≠ .name nm := by
        intro t ht h
        subst h
        rcases mem_cons.1 ht with ht | ht
        · exact hx (by simpa using ht.symm)
        · exact hwords (by simp [Read.words, show Tok.name nm ∈ pre by simpa using ht])
      have hshape : (Read.via x pre inner post).text ++ rest =
          (.name x :: .lsq :: pre) ++ (inner.text ++ ((post ++ [.rsq]) ++ rest)) := by
        simp [Read.text]
      have hlt := ih hr.2.2 hinner hcount ((post ++ [.rsq]) ++ rest)
      rw [hshape, rewriteArray_text hpre, net_append, net_append (.name x :: .lsq :: pre)]
      omega

end TaskletReads
