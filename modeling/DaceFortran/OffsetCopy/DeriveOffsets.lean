/-
# `derive_offsets`

The function counts extents without their signs, ignores the sign in front of a coefficient of the
loop variable and takes a number before the variable for its coefficient.  A text that it does not
refuse is read exactly where none of these occurs, and then the offsets are those of the copy.
-/
import DaceFortran.OffsetCopy.AffineTerms
import Mathlib.Tactic.Linarith

open List

namespace OffsetCopy

/-! ## The texts that are read exactly -/

/-- No minus sign in front of an extent, no other factor than one on it, no minus sign in front of a
coefficient of the variable but zero, and no number directly before the variable. -/
structure Sound (T : Terms) : Prop where
  ext : ∀ q ∈ T, q.2.hasExt = true → q.1 ≠ .minus
  mulExt : ∀ s c, (s, .mulExt c) ∈ T → c.val = 1
  mulVar : ∀ s c, (s, .mulVar c) ∈ T → s = .minus → c.val = 0
  number : ∀ A s c s' B, T ≠ A ++ (s, .num c) :: (s', .var) :: B

/-- The coefficient of the loop variable, where no parenthesis is. -/
def slope (T : Terms) : ℤ := (T.map fun q => match q.2 with
  | .var => q.1.value
  | .mulVar c => q.1.value * c.val
  | _ => 0).sum

/-- The coefficient of the extent. -/
def exts (T : Terms) : ℤ := (T.map fun q => match q.2 with
  | .ext => q.1.value
  | .mulExt c => q.1.value * c.val
  | _ => 0).sum

theorem slope_append (T T' : Terms) : slope (T ++ T') = slope T + slope T' := by simp [slope]

theorem slope_cons (q : Sign × Kind) (T : Terms) : slope (q :: T) = slope [q] + slope T := by
  simp [slope]

theorem exts_cons (q : Sign × Kind) (T : Terms) : exts (q :: T) = exts [q] + exts T := by
  simp [exts]

variable {T : Terms} {A B : Terms}

theorem value_eq (hT : ¬ ∃ q ∈ T, q.2.paren = true) (j m : ℤ) :
    value j m T = slope T * j + numbers T + exts T * m := by
  induction T with
  | nil => simp [value, slope, numbers, exts]
  | cons q T ih =>
    have hq : q.2.paren ≠ true := fun h => hT ⟨q, mem_cons_self, h⟩
    have hrest : ¬ ∃ q' ∈ T, q'.2.paren = true := by
      rintro ⟨q', hq', h⟩
      exact hT ⟨q', mem_cons_of_mem q hq', h⟩
    rw [value_cons, ih hrest, slope_cons, numbers_cons, exts_cons]
    rcases q with ⟨s, k⟩
    cases k with
    | prev => exact absurd rfl hq
    | mulPrev c => exact absurd rfl hq
    | _ =>
      simp [slope, numbers, exts, Kind.value]
      ring

/-- A text stands for one slope, one constant and one number of extents. -/
theorem right_iff (hT : ¬ ∃ q ∈ T, q.2.paren = true) (a b n : ℤ) :
    (∀ j m, value j m T = a * j + b + n * m) ↔ slope T = a ∧ numbers T = b ∧ exts T = n := by
  simp only [value_eq hT]
  constructor
  · intro h
    have h0 := h 0 0
    have hj := h 1 0
    have hm := h 0 1
    refine ⟨?_, ?_, ?_⟩ <;> linarith
  · rintro ⟨rfl, rfl, rfl⟩ j m
    rfl

theorem slope_free (hT : Free T) : slope T = 0 := by
  induction T with
  | nil => rfl
  | cons q T ih =>
    rw [slope_cons, ih hT.tail, add_zero]
    have hq := hT q mem_cons_self
    rcases q with ⟨s, k⟩
    cases k <;> simp_all [slope, Kind.hasVar]

/-- The count of the extents is their coefficient exactly without minus signs. -/
theorem exts_eq_iff (hunit : ∀ s c, (s, .mulExt c) ∈ T → c.val = 1) :
    exts T = extCount T ↔ ∀ q ∈ T, q.2.hasExt = true → q.1 ≠ .minus := by
  -- each minus sign takes two off, so that the coefficient is never more
  have hle : exts T ≤ extCount T ∧
      (exts T = extCount T ↔ ∀ q ∈ T, q.2.hasExt = true → q.1 ≠ .minus) := by
    induction T with
    | nil => simp [exts, extCount]
    | cons q T ih =>
      obtain ⟨hle, hiff⟩ := ih fun s c hmem => hunit s c (mem_cons_of_mem q hmem)
      rw [exts_cons, forall_mem_cons, ← hiff]
      have hone {s : Sign} {k : Kind} (hext : k.hasExt = true) (hvalue : exts [(s, k)] = s.value) :
          exts [(s, k)] + exts T ≤ extCount ((s, k) :: T) ∧
            (exts [(s, k)] + exts T = extCount ((s, k) :: T) ↔
              (k.hasExt = true → s ≠ .minus) ∧ exts T = extCount T) := by
        have hcount : extCount ((s, k) :: T) = extCount T + 1 := by
          simp [extCount, hext]
        rw [hvalue, hcount]
        cases s <;> simp [Sign.value, hext] <;> omega
      rcases q with ⟨s, k⟩
      cases k with
      | ext => exact hone rfl (by simp [exts])
      | mulExt c =>
        have hc := hunit s c mem_cons_self
        exact hone rfl (by simp [exts, hc])
      | _ =>
        simp only [exts, extCount] at hle ⊢
        simpa [Kind.hasExt] using hle
  exact hle.2

variable {p : Sign × Kind} {s s' : Sign} {c : Num}

theorem eq_of_hasVar {q : Sign × Kind} (hA : Free A) (hB : Free B)
    (hq : q ∈ A ++ p :: B) (hvar : q.2.hasVar = true) : q = p := by
  rcases mem_append.1 hq with hq | hq
  · rw [hA q hq] at hvar
    cases hvar
  · rcases mem_cons.1 hq with rfl | hq
    · rfl
    · rw [hB q hq] at hvar
      cases hvar

/-- Around its only variable a text splits in one way. -/
theorem eq_inFront {A B A' B' : Terms} {p' : Sign × Kind} (hA : Free A) (hB : Free B)
    (h : A ++ p :: B = A' ++ p' :: B') (hvar : p'.2.hasVar = true) : A = A' := by
  rcases append_eq_append_iff.1 h with ⟨t, hA', ht⟩ | ⟨t, hAt, ht⟩
  · rcases t with - | ⟨q, t⟩
    · rw [hA', append_nil]
    · have hmem : p' ∈ B := by
        rw [cons_append] at ht
        rw [(List.cons.inj ht).2]
        exact mem_append_right t mem_cons_self
      rw [hB p' hmem] at hvar
      cases hvar
  · rcases t with - | ⟨q, t⟩
    · rw [hAt, append_nil]
    · have hmem : p' ∈ A := by
        rw [cons_append] at ht
        rw [hAt, (List.cons.inj ht).1]
        exact mem_append_right A' mem_cons_self
      rw [hA p' hmem] at hvar
      cases hvar

theorem slope_split (hA : Free A) (hB : Free B) (p : Sign × Kind) :
    slope (A ++ p :: B) = slope [p] := by
  rw [slope_append, slope_cons, slope_free hA, slope_free hB, zero_add, add_zero]

theorem numbers_split (hp : p.2.hasVar = true) :
    numbers (A ++ p :: B) = numbers A + numbers B := by
  have hnone : numbers [p] = 0 := by
    rcases p with ⟨s, k⟩
    cases k <;> simp_all [numbers, Kind.hasVar]
  rw [numbers_append, numbers_cons, hnone, zero_add]

theorem numbers_ext (A B : Terms) (s : Sign) :
    numbers (A ++ [(s, .ext)] ++ B) = numbers A + numbers B := by
  have hnone : numbers [(s, .ext)] = 0 := by simp [numbers]
  rw [numbers_append, numbers_append, hnone, add_zero]

theorem mem_mulExt (hA : ∀ q ∈ A, q.2.mul = false)
    (hB : ∀ q ∈ B, q.2.mul = false) (hp : p.2.hasVar = true) (s : Sign) (c : Num) :
    (s, .mulExt c) ∉ A ++ p :: B := by
  intro hmem
  rcases mem_append.1 hmem with hmem | hmem
  · exact absurd (hA _ hmem) (by simp [Kind.mul])
  · rcases mem_cons.1 hmem with rfl | hmem
    · cases hp
    · exact absurd (hB _ hmem) (by simp [Kind.mul])

/-- A coefficient of the variable: its sign is lost. -/
theorem sound_mulVar (hA : Free A) (hB : Free B)
    (hmul : ∀ q ∈ A ++ [(s, .ext)] ++ B, q.2.mul = false) :
    slope (A ++ (s, .mulVar c) :: B) = c.val ∧ numbers (A ++ (s, .mulVar c) :: B) =
      numbers (A ++ [(s, .ext)] ++ B) ∧ exts (A ++ (s, .mulVar c) :: B) =
      extCount (A ++ (s, .mulVar c) :: B) ↔ Sound (A ++ (s, .mulVar c) :: B) := by
  have hunit : ∀ s' c', (s', .mulExt c') ∈ A ++ (s, .mulVar c) :: B → c'.val = 1 :=
    fun s' c' hmem => absurd hmem (mem_mulExt
      (fun q hq => hmul q (mem_append_left _ (mem_append_left _ hq)))
      (fun q hq => hmul q (mem_append_right _ hq)) rfl s' c')
  have hslope : slope [(s, .mulVar c)] = s.value * c.val := by simp [slope]
  rw [slope_split hA hB, hslope, numbers_split rfl, numbers_ext, exts_eq_iff hunit]
  constructor
  · rintro ⟨hsign, -, hext⟩
    refine ⟨hext, hunit, fun s' c' hmem hminus => ?_, fun A' s' c' s'' B' hR => ?_⟩
    · have hsame := eq_of_hasVar hA hB hmem rfl
      cases hsame
      subst hminus
      simp only [Sign.value] at hsign
      omega
    · have hmem : (s'', .var) ∈ A ++ (s, .mulVar c) :: B := by rw [hR]; simp
      have hsame := eq_of_hasVar hA hB hmem rfl
      cases hsame
  · intro h
    refine ⟨?_, rfl, h.ext⟩
    have hminus := h.mulVar s c (by simp)
    cases s with
    | minus => rw [hminus rfl]; rfl
    | _ => exact one_mul _

/-- A variable without a coefficient, with no number and no coefficient of the extent before it. -/
theorem sound_bare (hA : Free A) (hB : Free B)
    (hlast : ∀ A' s' k, A = A' ++ [(s', k)] → k = .ext) (hmul : ∀ q ∈ A ++ B, q.2.mul = false) :
    slope (A ++ (s, .var) :: B) = s.value ∧ numbers (A ++ (s, .var) :: B) = numbers (A ++ B) ∧
      exts (A ++ (s, .var) :: B) = extCount (A ++ (s, .var) :: B) ↔
        Sound (A ++ (s, .var) :: B) := by
  have hunit : ∀ s' c', (s', .mulExt c') ∈ A ++ (s, .var) :: B → c'.val = 1 :=
    fun s' c' hmem => absurd hmem (mem_mulExt (fun q hq => hmul q (mem_append_left _ hq))
      (fun q hq => hmul q (mem_append_right _ hq)) rfl s' c')
  have hslope : slope [(s, .var)] = s.value := by simp [slope]
  rw [slope_split hA hB, hslope, numbers_split rfl, numbers_append, exts_eq_iff hunit]
  constructor
  · rintro ⟨-, -, hext⟩
    refine ⟨hext, hunit, fun s' c' hmem => ?_, fun A' s' c' s'' B' hR => ?_⟩
    · have hsame := eq_of_hasVar hA hB hmem rfl
      cases hsame
    · have hfront : A = A' ++ [(s', .num c')] := by
        have hR' : A ++ (s, .var) :: B = A' ++ [(s', .num c')] ++ (s'', .var) :: B' := by
          rw [hR]
          simp
        exact eq_inFront hA hB hR' rfl
      cases hlast A' s' (.num c') hfront
  · exact fun h => ⟨rfl, rfl, h.ext⟩

/-- A number before the variable is never read right. -/
theorem not_sound_number (hA : Free A) (hB : Free B) :
    slope (A ++ [(s', .num c)] ++ (s, .var) :: B) = s.value * c.val ∧
      numbers (A ++ [(s', .num c)] ++ (s, .var) :: B) = numbers (A ++ [(s', .ext)] ++ B) ∧
      exts (A ++ [(s', .num c)] ++ (s, .var) :: B) =
        extCount (A ++ [(s', .num c)] ++ (s, .var) :: B) ↔
      Sound (A ++ [(s', .num c)] ++ (s, .var) :: B) := by
  have hfront : Free (A ++ [(s', .num c)]) := by
    intro q hq
    rcases mem_append.1 hq with hq | hq
    · exact hA q hq
    · rw [mem_singleton.1 hq]
      rfl
  have hslope : slope [(s, .var)] = s.value := by simp [slope]
  have hnumber : numbers [(s', .num c)] = s'.value * c.val := by simp [numbers]
  rw [slope_split hfront hB, hslope, numbers_split rfl, numbers_append, hnumber, numbers_ext]
  refine iff_of_false ?_ fun h => h.number A s' c s B (by simp)
  -- the coefficient would be one by the slope and zero by the constant
  rintro ⟨hone, hzero, -⟩
  cases s <;> cases s' <;> simp only [Sign.value] at hone hzero <;> omega

/-- A coefficient of the extent before the variable is read as the variable's. -/
theorem sound_mulExt (hA : Free A) (hB : Free B)
    (hmul : ∀ q ∈ A ++ [(s', .ext)] ++ B, q.2.mul = false) :
    slope (A ++ [(s', .mulExt c)] ++ (s, .var) :: B) = s.value * c.val ∧
      numbers (A ++ [(s', .mulExt c)] ++ (s, .var) :: B) = numbers (A ++ [(s', .ext)] ++ B) ∧
      exts (A ++ [(s', .mulExt c)] ++ (s, .var) :: B) =
        extCount (A ++ [(s', .mulExt c)] ++ (s, .var) :: B) ↔
      Sound (A ++ [(s', .mulExt c)] ++ (s, .var) :: B) := by
  have hfront : Free (A ++ [(s', .mulExt c)]) := by
    intro q hq
    rcases mem_append.1 hq with hq | hq
    · exact hA q hq
    · rw [mem_singleton.1 hq]
      rfl
  have hunit (hc : c.val = 1) : ∀ s'' c'', (s'', .mulExt c'') ∈ A ++ [(s', .mulExt c)] ++
    (s, .var) :: B →
      c''.val = 1 := by
    intro s'' c'' hmem
    rcases mem_append.1 hmem with hmem | hmem
    · rcases mem_append.1 hmem with hmem | hmem
      · have hfalse := hmul _ (mem_append_left B (mem_append_left [(s', .ext)] hmem))
        cases hfalse
      · have hsame := mem_singleton.1 hmem
        cases hsame
        exact hc
    · rcases mem_cons.1 hmem with hmem | hmem
      · cases hmem
      · have hfalse := hmul _ (mem_append_right (A ++ [(s', .ext)]) hmem)
        cases hfalse
  have hslope : slope [(s, .var)] = s.value := by simp [slope]
  have hnumber : numbers [(s', .mulExt c)] = 0 := by simp [numbers]
  rw [slope_split hfront hB, hslope, numbers_split rfl, numbers_append, hnumber,
    numbers_ext, add_zero]
  constructor
  · rintro ⟨hone, -, hext⟩
    have hc : c.val = 1 := by
      cases s <;> simp only [Sign.value] at hone <;> omega
    rw [exts_eq_iff (hunit hc)] at hext
    refine ⟨hext, hunit hc, fun s'' c'' hmem => ?_, fun A' s'' c'' s₃ B' hR => ?_⟩
    · have hsame := eq_of_hasVar hfront hB hmem rfl
      cases hsame
    · have hsplit : A ++ [(s', .mulExt c)] = A' ++ [(s'', .num c'')] := by
        have hR' : A ++ [(s', .mulExt c)] ++ (s, .var) :: B =
            A' ++ [(s'', .num c'')] ++ (s₃, .var) :: B' := by
          rw [hR]
          simp
        exact eq_inFront hfront hB hR' rfl
      have hlast := (append_inj' hsplit rfl).2
      cases hlast
  · intro h
    have hc := h.mulExt s' c (by simp)
    refine ⟨?_, rfl, (exts_eq_iff (hunit hc)).2 h.ext⟩
    rw [hc]
    simp

/-- What is read of a text that is not refused is its value exactly where the text is sound. -/
theorem parseAffine_right_iff {R : Terms} (hrefused : ¬ Refused R) :
    slope R = slopeRead R ∧ numbers R = numbers (leftTerms R) ∧ exts R = extCount R ↔ Sound R := by
  unfold Refused at hrefused
  push Not at hrefused
  obtain ⟨hparen, hvars, hleft⟩ := hrefused
  cases hfrom : fromVar R with
  | nil =>
    have hsplit := inFront_append_fromVar R
    rw [hfrom, append_nil] at hsplit
    have hfree : Free R := hsplit ▸ free_inFront R
    have hleftTerms : leftTerms R = R := by rw [leftTerms, hfrom]
    have hslope : slopeRead R = 0 := by rw [slopeRead, hfrom]
    rw [hleftTerms] at hleft ⊢
    have hunit : ∀ s c, (s, .mulExt c) ∈ R → c.val = 1 :=
      fun s c hmem => absurd (hleft.1 _ hmem) (by simp [Kind.mul])
    rw [hslope, slope_free hfree, exts_eq_iff hunit]
    constructor
    · rintro ⟨-, -, hext⟩
      refine ⟨hext, hunit, fun s c hmem => ?_, fun A s c s' B hR => ?_⟩
      · exact absurd (hfree _ hmem) (by simp [Kind.hasVar])
      · have hmem : (s', .var) ∈ R := by rw [hR]; simp
        exact absurd (hfree _ hmem) (by simp [Kind.hasVar])
    · exact fun h => ⟨rfl, rfl, h.ext⟩
  | cons p B =>
    rcases p with ⟨s, k⟩
    have hsplit := inFront_append_fromVar R
    rw [hfrom] at hsplit
    have hleftTerms : leftTerms R = (taken (inFront R) s k).2 ++ B := by rw [leftTerms, hfrom]
    have hslope : slopeRead R = (taken (inFront R) s k).1 := by rw [slopeRead, hfrom]
    have hk : k.hasVar = true := hasVar_of_fromVar hfrom
    have hA := free_inFront R
    rw [hleftTerms] at hleft ⊢
    rw [hslope]
    generalize inFront R = A at hA hleft hsplit ⊢
    subst hsplit
    -- of a text that is not refused one term has the variable
    have hB : Free B := by
      intro q hq
      by_contra hvar
      have hmem : q ∈ B.filter fun q => q.2.hasVar := mem_filter.2 ⟨hq, by simpa using hvar⟩
      have hpos := length_pos_of_mem hmem
      have hcons : ((s, k) :: B).filter (fun q => q.2.hasVar) =
          (s, k) :: B.filter fun q => q.2.hasVar := filter_cons_of_pos (by simpa using hk)
      rw [filter_append, hcons, length_append, length_cons] at hvars
      omega
    have hparens := hparen (s, k) (by simp)
    cases k with
    | mulVar c => exact sound_mulVar hA hB hleft.1
    | prev => exact absurd rfl hparens
    | mulPrev c => exact absurd rfl hparens
    | var =>
      by_cases hlast : ∀ A' s' k, A = A' ++ [(s', k)] → k = .ext
      · have htaken : taken A s .var = (s.value, A) := taken_bare hlast s
        rw [htaken] at hleft ⊢
        exact sound_bare hA hB hlast hleft.1
      · push Not at hlast
        obtain ⟨A', s', k, rfl, hk⟩ := hlast
        have hA' : Free A' := fun q hq => hA q (mem_append_left _ hq)
        have hfree : k.hasVar = false := hA (s', k) (mem_append_right _ mem_cons_self)
        cases k with
        | num c =>
          -- the number in front of the variable is taken for its factor
          have htaken : taken (A' ++ [(s', .num c)]) s .var =
              (s.value * c.val, A' ++ [(s', .ext)]) := by simp [taken]
          rw [htaken]
          exact not_sound_number hA' hB
        | mulExt c =>
          have htaken : taken (A' ++ [(s', .mulExt c)]) s .var =
              (s.value * c.val, A' ++ [(s', .ext)]) := by simp [taken]
          rw [htaken] at hleft ⊢
          exact sound_mulExt hA' hB hleft.1
        | ext => exact absurd rfl hk
        | _ => cases hfree
    | _ => cases hk

/-! ## The offsets -/

/-- The summands of the text of an offset. -/
inductive Summand
  | blank
  | int (z : ℤ)
  | ext
  | exts (n : ℤ)
  | ghost
deriving DecidableEq

def Summand.value (m : ℤ) (bb : ℕ) : Summand → ℤ
  | .blank => 0
  | .int z => z
  | .ext => m
  | .exts n => n * m
  | .ghost => bb

/-- What the text of an offset stands for at the call site. -/
def offset (m : ℤ) (bb : ℕ) (e : List Summand) : ℤ := (e.map (Summand.value m bb)).sum

/-- The loop of `_sum`: the integers' total and the symbols. -/
def sumTerms : List Summand → ℤ × List Summand
  | [] => (0, [])
  | .blank :: r => sumTerms r
  | .int z :: r => (z + (sumTerms r).1, (sumTerms r).2)
  | t :: r => ((sumTerms r).1, t :: (sumTerms r).2)

/-- `_sum` -/
def sum (terms : List Summand) : List Summand :=
  let syms := (sumTerms terms).2 ++ if (sumTerms terms).1 = 0 then [] else [.int (sumTerms terms).1]
  if syms = [] then [.int 0] else syms

/-- An offset's text; with slope one the ghost width does not cancel. -/
def frame (a b n : ℤ) : List Summand :=
  sum ([if n = 0 then .blank else if n = 1 then .ext else .exts n, .int b] ++
    if a = -1 then [] else [.ghost, .int 1])

def deriveOffsets (dstExpr srcExpr : List Ch) : Option (List Summand × List Summand) :=
  (parseAffine dstExpr).bind fun d => (parseAffine srcExpr).bind fun s =>
    if d.1 ≠ s.1 then none
    else if |d.1| ≠ 1 then none
    else some (frame d.1 d.2.1 d.2.2, frame d.1 s.2.1 s.2.2)

theorem offset_sumTerms (m : ℤ) (bb : ℕ) (terms : List Summand) :
    (sumTerms terms).1 + offset m bb (sumTerms terms).2 = offset m bb terms := by
  induction terms with
  | nil => rfl
  | cons t r ih =>
    have hcons : offset m bb (t :: r) = t.value m bb + offset m bb r := by simp [offset]
    rw [hcons, ← ih]
    cases t <;> simp [sumTerms, offset, Summand.value] <;> ring

theorem offset_sum (m : ℤ) (bb : ℕ) (terms : List Summand) :
    offset m bb (sum terms) = offset m bb terms := by
  have happend (e e' : List Summand) : offset m bb (e ++ e') = offset m bb e + offset m bb e' := by
    simp [offset]
  rw [← offset_sumTerms m bb terms]
  unfold sum
  generalize sumTerms terms = q
  rcases q with ⟨total, syms⟩
  by_cases hzero : total = 0
  · subst hzero
    by_cases hnil : syms = []
    · subst hnil
      rfl
    · simp [hnil]
  · rw [if_neg hzero, if_neg (by simp), happend, add_comm]
    simp [offset, Summand.value]

theorem offset_frame (m : ℤ) (bb : ℕ) (a b n : ℤ) :
    offset m bb (frame a b n) = n * m + b + if a = -1 then 0 else (bb : ℤ) + 1 := by
  rw [frame, offset_sum]
  split_ifs with hzero hone <;> simp [offset, Summand.value, *] <;> ring

/-- The cells the offsets address: destination and source at each step of the ascending iterate. -/
def copied (m : ℤ) (bb : ℕ) (doff soff : List Summand) : Set (ℤ × ℤ) :=
  {p | ∃ gg : ℕ, gg < bb ∧ p = (offset m bb doff + gg, offset m bb soff + gg)}

/-- The cells of the loop over the ghost width, in the frame that starts at its lower end. -/
def swept (m : ℤ) (bb : ℕ) (dst src : Terms) : Set (ℤ × ℤ) :=
  {p | ∃ j : ℕ, 1 ≤ j ∧ j ≤ bb ∧ p = (value j m dst + bb, value j m src + bb)}

/-- An expression is written as the terms, with any spaces. -/
def Reads (expr : List Ch) (T : Terms) : Prop :=
  expr.filter (fun c => c ≠ .space) = text T ∧ Signed T

/-- The two functions compute what they claim to: the parts of the texts and the copy. -/
structure ComputesCopy (dstExpr srcExpr : List Ch) (dst src : Terms) : Prop where
  dstParsed : ∀ a b n, parseAffine dstExpr = some (a, b, n) →
    ∀ j m, value j m dst = a * j + b + n * m
  srcParsed : ∀ a b n, parseAffine srcExpr = some (a, b, n) →
    ∀ j m, value j m src = a * j + b + n * m
  copy : ∀ doff soff, deriveOffsets dstExpr srcExpr = some (doff, soff) →
    ∀ m bb, copied m bb doff soff = swept m bb dst src

/-- A text is refused, or it is sound. -/
def Fits (T : Terms) : Prop := Refused (resolved T) ∨ Sound (resolved T)

theorem parseAffine_right {expr : List Ch} (h : Reads expr T) :
    (∀ a b n, parseAffine expr = some (a, b, n) → ∀ j m, value j m T = a * j + b + n * m) ↔
      Fits T := by
  have hright (hparse : ¬ Refused (resolved T)) :
      (∀ j m, value j m T = slopeRead (resolved T) * j + numbers (leftTerms (resolved T)) +
        extCount (resolved T) * m) ↔ Sound (resolved T) := by
    rw [← parseAffine_right_iff hparse, ← right_iff fun hparen => hparse (.inl hparen)]
    simp only [value_resolved]
  constructor
  · intro hall
    by_cases hrefused : Refused (resolved T)
    · exact .inl hrefused
    · refine .inr ((hright hrefused).1 (hall _ _ _ ?_))
      exact (parseAffine_eq h.1 h.2).2 ⟨hrefused, rfl, rfl, rfl⟩
  · intro hfits a b n hparse
    obtain ⟨hrefused, rfl, rfl, rfl⟩ := (parseAffine_eq h.1 h.2).1 hparse
    exact (hright hrefused).2 (hfits.resolve_left hrefused)

/-- The iterate normalised onto the ghost cells, ascending or descending. -/
theorem copied_eq_swept {a bd nd bs ns : ℤ} {dst src : Terms} (ha : |a| = 1)
    (hdst : ∀ j m, value j m dst = a * j + bd + nd * m)
    (hsrc : ∀ j m, value j m src = a * j + bs + ns * m) (m : ℤ) (bb : ℕ) :
    copied m bb (frame a bd nd) (frame a bs ns) = swept m bb dst src := by
  ext p
  simp only [copied, swept, Set.mem_ofPred_eq, offset_frame, hdst, hsrc]
  rcases (abs_eq (by decide)).1 ha with rfl | rfl
  · -- the iterate ascends: one more than the ghost cell
    rw [if_neg (by decide)]
    constructor
    · rintro ⟨gg, hgg, rfl⟩
      refine ⟨gg + 1, by omega, by omega, Prod.ext ?_ ?_⟩ <;> push_cast <;> ring
    · rintro ⟨j, hj, hle, rfl⟩
      refine ⟨j - 1, by omega, Prod.ext ?_ ?_⟩ <;> push_cast [hj] <;> ring
  · -- the iterate descends: the ghost width less the iterate
    rw [if_pos rfl]
    constructor
    · rintro ⟨gg, hgg, rfl⟩
      refine ⟨bb - gg, by omega, by omega, Prod.ext ?_ ?_⟩ <;> push_cast [hgg.le] <;> ring
    · rintro ⟨j, hj, hle, rfl⟩
      refine ⟨bb - j, by omega, Prod.ext ?_ ?_⟩ <;> push_cast [hle] <;> ring

/-- The functions compute the copy exactly where each text is refused or sound. -/
theorem computesCopy_iff {dstExpr srcExpr : List Ch} {dst src : Terms} (hdst : Reads dstExpr dst)
    (hsrc : Reads srcExpr src) :
    ComputesCopy dstExpr srcExpr dst src ↔ Fits dst ∧ Fits src := by
  constructor
  · exact fun h => ⟨(parseAffine_right hdst).1 h.dstParsed, (parseAffine_right hsrc).1 h.srcParsed⟩
  · rintro ⟨hfitsDst, hfitsSrc⟩
    have hrightDst := (parseAffine_right hdst).2 hfitsDst
    have hrightSrc := (parseAffine_right hsrc).2 hfitsSrc
    refine ⟨hrightDst, hrightSrc, ?_⟩
    intro doff soff hderive m bb
    unfold deriveOffsets at hderive
    obtain ⟨⟨ad, bd, nd⟩, hd, hderive⟩ := Option.bind_eq_some_iff.1 hderive
    obtain ⟨⟨as, bs, ns⟩, hs, hderive⟩ := Option.bind_eq_some_iff.1 hderive
    simp only at hderive
    split_ifs at hderive with hsame hone
    cases hderive
    rw [not_not] at hsame hone
    subst hsame
    exact copied_eq_swept hone (hrightDst ad bd nd hd) (hrightSrc ad bs ns hs) m bb

/-- `-j` from `m - (j - 1)`, the ghost cells below: the copy is computed. -/
theorem computesCopy_iff_mirror :
    ComputesCopy [.minus, .var] [.ext, .space, .minus, .space, .lpar, .var, .space, .minus, .space,
      .digit 1, .rpar] [(.minus, .var)] [(.none, .ext), (.minus, .prev)] := by
  refine (computesCopy_iff ⟨rfl, by simp [Signed]⟩ ⟨rfl, by simp [Signed]⟩).2 ⟨.inr ?_, .inr ?_⟩
  · have hT : resolved [(.minus, .var)] = [(.minus, .var)] := rfl
    rw [hT]
    refine ⟨by simp [Kind.hasExt], by simp, by simp, fun A s c s' B h => ?_⟩
    have hlength := congrArg length h
    simp at hlength
    omega
  · have hT : resolved [(.none, .ext), (.minus, .prev)] =
        [(.none, .ext), (.minus, .var), (.plus, .num one)] := rfl
    rw [hT]
    refine ⟨by simp [Kind.hasExt], by simp, by simp, fun A s c s' B h => ?_⟩
    rcases A with - | ⟨a, - | ⟨b, A⟩⟩
    · simp at h
    · simp at h
    · have hlength := congrArg length h
      simp at hlength
      omega

/-- `1 + j` from `j`: the number is taken for the coefficient of the variable. -/
theorem not_computesCopy_numberFirst :
    ¬ ComputesCopy [.digit 1, .space, .plus, .space, .var] [.var]
      [(.none, .num one), (.plus, .var)] [(.none, .var)] := by
  intro h
  have hvalue := h.dstParsed 1 0 0 (by decide) 1 0
  revert hvalue
  decide

end OffsetCopy
