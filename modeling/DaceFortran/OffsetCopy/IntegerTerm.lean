/-
# The integer that is left

Once the extent and the loop variable are cut out, the function strips plus signs and asks for one
integer.  The texts it takes are those a scan with four states takes, so that the terms left may
hold at most one that is no bare extent.
-/
import DaceFortran.OffsetCopy.ParseAffine

open List

namespace OffsetCopy

/-! ## The scan -/

/-- Where a scan for an integer with plus signs around it stands. -/
inductive Scan
  | lead
  | sign
  | digits
  | trail

def Scan.next : Scan → Ch → Option Scan
  | .lead, .plus => some .lead
  | .lead, .minus => some .sign
  | .lead, .digit _ => some .digits
  | .sign, .digit _ => some .digits
  | .sign, .plus => some .trail
  | .digits, .digit _ => some .digits
  | .digits, .plus => some .trail
  | .trail, .plus => some .trail
  | _, _ => none

def scan : Scan → List Ch → Option Scan
  | st, [] => some st
  | st, c :: e => (st.next c).bind fun st => scan st e

theorem scan_append (st : Scan) (e e' : List Ch) :
    scan st (e ++ e') = (scan st e).bind fun st => scan st e' := by
  induction e generalizing st with
  | nil => rfl
  | cons c e ih =>
    rw [cons_append, scan, scan, Option.bind_assoc]
    congr 1
    funext st'
    exact ih st'

theorem scan_plus_end (st : Scan) (e : List Ch) : scan st (e ++ [.plus]) = none ↔
    scan st e = none := by
  rw [scan_append]
  cases scan st e with
  | none => exact Iff.rfl
  | some st => cases st <;> simp [scan, Scan.next]

theorem scan_dropWhile (e : List Ch) :
    scan .lead (e.dropWhile fun c => c = .plus) = scan .lead e := by
  induction e with
  | nil => rfl
  | cons c e ih =>
    by_cases hc : c = .plus
    · subst hc
      rw [dropWhile_cons_of_pos (by simp), ih]
      rfl
    · rw [dropWhile_cons_of_neg (by simpa using hc)]

theorem scan_dropEnd (st : Scan) (e : List Ch) :
    scan st (e.reverse.dropWhile fun c => c = .plus).reverse = none ↔ scan st e = none := by
  rcases eq_nil_or_concat e with rfl | ⟨e, c, rfl⟩
  · rfl
  · rw [concat_eq_append, reverse_append, reverse_singleton, singleton_append]
    by_cases hc : c = .plus
    · subst hc
      rw [dropWhile_cons_of_pos (by simp), scan_dropEnd st e, scan_plus_end]
    · rw [dropWhile_cons_of_neg (by simpa using hc)]
      simp
termination_by e.length

theorem scan_stripPlus (e : List Ch) : scan .lead (stripPlus e) = none ↔ scan .lead e = none := by
  unfold stripPlus
  rw [scan_dropEnd, scan_dropWhile]

theorem stripPlus_ne_concat (e p : List Ch) : stripPlus e ≠ p ++ [.plus] := by
  intro h
  have hrev := congrArg List.reverse h
  rw [stripPlus, reverse_reverse, reverse_append] at hrev
  have hhead := List.head?_dropWhile_not (fun c : Ch => decide (c = .plus))
    (e.dropWhile fun c => c = .plus).reverse
  rw [hrev] at hhead
  simp at hhead

theorem stripPlus_ne_cons (e r : List Ch) : stripPlus e ≠ .plus :: r := by
  intro h
  -- what is dropped at the end leaves the first character, or nothing at all
  have hsuffix := dropWhile_suffix (fun c : Ch => decide (c = .plus))
    (l := (e.dropWhile fun c => c = .plus).reverse)
  have hprefix : stripPlus e <+: e.dropWhile fun c => c = .plus := by
    have hprefix := reverse_prefix.2 hsuffix
    rwa [reverse_reverse] at hprefix
  obtain ⟨t, ht⟩ := hprefix
  rw [h] at ht
  have hhead := List.head?_dropWhile_not (fun c : Ch => decide (c = .plus)) e
  rw [← ht] at hhead
  simp at hhead

theorem scan_trail {r : List Ch} (h : scan .trail r ≠ none) : ∃ p, .plus :: r = p ++ [.plus] := by
  induction r with
  | nil => exact ⟨[], rfl⟩
  | cons c r ih =>
    cases c with
    | plus =>
      obtain ⟨p, hp⟩ := ih h
      exact ⟨.plus :: p, by rw [hp]; rfl⟩
    | _ => exact absurd rfl h

/-- From the digits on the scan takes digits alone where no plus sign ends the text. -/
theorem scan_digits_iff {r : List Ch} (hend : ∀ p, r ≠ p ++ [.plus]) :
    scan .digits r = none ↔ (digitsOf r).2 ≠ [] := by
  induction r with
  | nil => simp [scan, digitsOf]
  | cons c r ih =>
    cases c with
    | digit d =>
      have hend' : ∀ p, r ≠ p ++ [.plus] := fun p hp => hend (.digit d :: p) (by rw [hp]; rfl)
      simpa [scan, Scan.next, digitsOf] using ih hend'
    | plus =>
      refine iff_of_true ?_ (by simp [digitsOf])
      by_contra htrail
      obtain ⟨p, hp⟩ := scan_trail htrail
      exact hend p hp
    | _ => exact iff_of_true rfl (by simp [digitsOf])

/-- The function reads what the scan takes. -/
theorem finish_eq_none_iff (e : List Ch) : finish e = none ↔ scan .lead e = none := by
  rw [← scan_stripPlus]
  have hend := stripPlus_ne_concat e
  have hhead := stripPlus_ne_cons e
  unfold finish
  generalize stripPlus e = s at hend hhead ⊢
  rcases s with - | ⟨c, r⟩
  · exact iff_of_false (by simp [digitsOf, signOf]) (by simp [scan])
  · have hr : ∀ p, r ≠ p ++ [.plus] := fun p hp => hend (c :: p) (by rw [hp]; rfl)
    cases c with
    | plus => exact absurd rfl (hhead r)
    | digit d =>
      have hscan : scan .lead (.digit d :: r) = scan .digits r := rfl
      rw [hscan, scan_digits_iff hr]
      simp [signOf, digitsOf]
    | minus =>
      rcases r with - | ⟨x, r⟩
      · exact iff_of_false (by simp) (by simp [scan, Scan.next])
      · have hr' : ∀ p, r ≠ p ++ [.plus] := fun p hp => hr (x :: p) (by rw [hp]; rfl)
        cases x with
        | digit d =>
          have hscan : scan .lead (.minus :: .digit d :: r) = scan .digits r := rfl
          rw [hscan, scan_digits_iff hr']
          simp [signOf, digitsOf]
        | plus =>
          refine iff_of_true (by simp [signOf, digitsOf]) ?_
          by_contra htrail
          obtain ⟨p, hp⟩ := scan_trail htrail
          exact hr p hp
        | _ => exact iff_of_true (by simp [signOf, digitsOf]) rfl
    | _ => exact iff_of_true (by simp [signOf, digitsOf]) rfl

/-! ## The terms that are left -/

/-- An extent without a minus sign leaves nothing but a plus sign. -/
def blank : Sign × Kind → Bool
  | (.minus, _) => false
  | (_, .ext) => true
  | _ => false

def Kind.mul : Kind → Bool
  | .mulExt _ => true
  | _ => false

/-- No extent with a coefficient, and at most one term that is no bare extent. -/
def Left (U : Terms) : Prop :=
  (∀ q ∈ U, q.2.mul = false) ∧ (U.filter fun q => !blank q).length ≤ 1

/-- Numbers and extents. -/
def Free (U : Terms) : Prop := ∀ q ∈ U, q.2.hasVar = false

variable {U : Terms} {q : Sign × Kind}

theorem Free.tail (h : Free (q :: U)) : Free U :=
  fun q' hq' => h q' (mem_cons_of_mem q hq')

theorem left_cons_blank (hq : blank q = true) (U : Terms) :
    Left (q :: U) ↔ Left U := by
  have hmul : q.2.mul = false := by
    rcases q with ⟨s, k⟩
    cases s <;> cases k <;> simp_all [blank, Kind.mul]
  unfold Left
  rw [filter_cons_of_neg (by simp [hq])]
  simp [hmul]

theorem left_cons_mul (hq : q.2.mul = true) (U : Terms) : ¬ Left (q :: U) := by
  intro h
  have hmul := h.1 q mem_cons_self
  rw [hq] at hmul
  cases hmul

theorem mul_of_blank (hq : blank q = true) : q.2.mul = false := by
  rcases q with ⟨s, k⟩
  cases s <;> cases k <;> simp_all [blank, Kind.mul]

theorem left_cons (hblank : blank q = false) (hmul : q.2.mul = false) (U : Terms) :
    Left (q :: U) ↔ ∀ q' ∈ U, blank q' = true := by
  unfold Left
  rw [filter_cons_of_pos (by simp [hblank]), length_cons]
  constructor
  · rintro ⟨-, hlen⟩ q' hq'
    have hnil : (U.filter fun q => !blank q) = [] := length_eq_zero_iff.1 (by omega)
    have hall := filter_eq_nil_iff.1 hnil q' hq'
    simpa using hall
  · intro hall
    have hnil : (U.filter fun q => !blank q) = [] :=
      filter_eq_nil_iff.2 fun q' hq' => by simp [hall q' hq']
    refine ⟨fun q' hq' => ?_, by rw [hnil]; rfl⟩
    rcases mem_cons.1 hq' with rfl | hq'
    · exact hmul
    · exact mul_of_blank (hall q' hq')

theorem scan_digits_text {st : Scan} (hst : st.next (.digit 0) = some .digits) (c : Num)
    (r : List Ch) : scan st (c.text ++ r) = scan .digits r := by
  have hmap (ds : List (Fin 10)) : scan .digits (ds.map Ch.digit ++ r) = scan .digits r := by
    induction ds with
    | nil => rfl
    | cons d ds ih => exact ih
  have hcons : scan st (c.text ++ r) = (st.next (.digit c.head)).bind
      fun st => scan st (c.tail.map Ch.digit ++ r) := rfl
  have hfirst : st.next (.digit c.head) = st.next (.digit 0) := by cases st <;> rfl
  rw [hcons, hfirst, hst]
  exact hmap c.tail

/-- Behind a sign or the digits only bare extents are taken. -/
theorem scan_residue_of_blank {st : Scan} (hplus : st.next .plus = some .trail)
    (hminus : st.next .minus = none) (hsign : ∀ q ∈ U, q.1 ≠ .none) (hfree : Free U) :
    scan st (residue U) ≠ none ↔ ∀ q ∈ U, blank q = true := by
  induction U generalizing st with
  | nil => simp [residue, scan]
  | cons q U ih =>
    have htail : scan .trail (residue U) ≠ none ↔ ∀ q ∈ U, blank q = true :=
      ih rfl rfl (fun q' hq' => hsign q' (mem_cons_of_mem q hq')) hfree.tail
    rcases q with ⟨s, k⟩
    rw [residue_cons, forall_mem_cons]
    cases s with
    | none => exact absurd rfl (hsign (.none, k) mem_cons_self)
    | minus =>
      have hscan : scan st (rest (.minus, k) ++ residue U) = none := by
        simp [rest, Sign.text, scan, hminus]
      exact iff_of_false (fun h => h hscan) (by simp [blank])
    | plus =>
      have hstep (r : List Ch) : scan st (.plus :: r) = scan .trail r := by
        rw [scan, hplus]
        rfl
      cases k with
      | ext =>
        rw [rest_ext]
        have hone : scan st (Sign.text .plus ++ residue U) = scan .trail (residue U) := hstep _
        rw [hone, htail]
        simp [blank]
      | num c =>
        rw [rest_num, append_assoc]
        have hone : scan st (Sign.text .plus ++ (c.text ++ residue U)) = none := hstep _
        exact iff_of_false (fun h => h hone) (by simp [blank])
      | mulExt c =>
        rw [rest_mulExt, append_assoc, append_assoc]
        have hone : scan st (Sign.text .plus ++ (c.text ++ ([.star] ++ residue U))) = none :=
          hstep _
        exact iff_of_false (fun h => h hone) (by simp [blank])
      | _ => exact absurd (hfree _ mem_cons_self) (by simp [Kind.hasVar])

theorem scan_lead_cons (hsign : ∀ q ∈ U, q.1 ≠ .none) (hfree : Free U)
    (hq : q.2.hasVar = false)
    (ih : scan .lead (residue U) ≠ none ↔ Left U) :
    scan .lead (residue (q :: U)) ≠ none ↔ Left (q :: U) := by
  have hdigits : scan .digits (residue U) ≠ none ↔ ∀ q ∈ U, blank q = true :=
    scan_residue_of_blank rfl rfl hsign hfree
  have hminus : scan .sign (residue U) ≠ none ↔ ∀ q ∈ U, blank q = true :=
    scan_residue_of_blank rfl rfl hsign hfree
  rcases q with ⟨s, k⟩
  rw [residue_cons]
  cases k with
  | ext =>
    rw [rest_ext]
    cases s with
    | minus =>
      rw [left_cons rfl rfl, ← hminus]
      rfl
    | _ =>
      rw [left_cons_blank rfl, ← ih]
      rfl
  | num c =>
    have hblank : blank (s, .num c) = false := by cases s <;> rfl
    have hscan : scan .lead (s.text ++ (c.text ++ residue U)) = scan .digits (residue U) := by
      cases s with
      | minus => exact @scan_digits_text .sign rfl c (residue U)
      | _ => exact @scan_digits_text .lead rfl c (residue U)
    rw [rest_num, append_assoc, hscan, left_cons hblank rfl, hdigits]
  | mulExt c =>
    have hscan : scan .lead (s.text ++ (c.text ++ ([.star] ++ residue U))) = none := by
      cases s with
      | minus => exact @scan_digits_text .sign rfl c ([.star] ++ residue U)
      | _ => exact @scan_digits_text .lead rfl c ([.star] ++ residue U)
    rw [rest_mulExt, append_assoc, append_assoc]
    exact iff_of_false (fun h => h hscan) (left_cons_mul rfl U)
  | _ => cases hq

theorem scan_lead (hsign : Signed U) (hfree : Free U) :
    scan .lead (residue U) ≠ none ↔ Left U := by
  have hall {U : Terms} (hsign : ∀ q ∈ U, q.1 ≠ .none) (hfree : Free U) :
      scan .lead (residue U) ≠ none ↔ Left U := by
    induction U with
    | nil => simp [residue, scan, Left]
    | cons q U ih =>
      have hsign' : ∀ q ∈ U, q.1 ≠ .none := fun q' hq' => hsign q' (mem_cons_of_mem q hq')
      exact scan_lead_cons hsign' hfree.tail (hfree q mem_cons_self) (ih hsign' hfree.tail)
  rcases U with - | ⟨q, U⟩
  · simp [residue, scan, Left]
  · exact scan_lead_cons hsign hfree.tail (hfree q mem_cons_self) (hall hsign hfree.tail)

theorem finish_residue_ne_none (hsign : Signed U) (hfree : Free U) :
    finish (residue U) ≠ none ↔ Left U := by
  rw [Ne, finish_eq_none_iff, ← Ne, scan_lead hsign hfree]

/-! ## Their value -/

theorem numbers_cons (q : Sign × Kind) (U : Terms) :
    numbers (q :: U) = numbers [q] + numbers U := by
  simp [numbers]

theorem numbers_append (U U' : Terms) : numbers (U ++ U') = numbers U + numbers U' := by
  simp [numbers]

theorem total_residue {U : Terms} (hsign : ∀ q ∈ U, q.1 ≠ .none) (hfree : Free U)
    (hmul : ∀ q ∈ U, q.2.mul = false) (neg : Bool) (ds : List (Fin 10)) :
    total neg ds (residue U) = signedVal neg ds + numbers U := by
  induction U generalizing neg ds with
  | nil => simp [residue, total, numbers, signedVal]
  | cons q U ih =>
    have ih' := ih (fun q' hq' => hsign q' (mem_cons_of_mem q hq')) hfree.tail
      fun q' hq' => hmul q' (mem_cons_of_mem q hq')
    rcases q with ⟨s, k⟩
    rw [residue_cons, numbers_cons]
    cases k with
    | ext =>
      have hnumbers : numbers [(s, .ext)] = 0 := by simp [numbers]
      rw [rest_ext, hnumbers]
      cases s with
      | none => exact absurd rfl (hsign (.none, .ext) mem_cons_self)
      | plus =>
        have hstep : total neg ds (Sign.text .plus ++ residue U) =
            signedVal neg ds + total false [] (residue U) := rfl
        rw [hstep, ih', signedVal_nil]
      | minus =>
        have hstep : total neg ds (Sign.text .minus ++ residue U) =
            signedVal neg ds + total true [] (residue U) := rfl
        rw [hstep, ih', signedVal_nil]
    | num c =>
      have hdigits (neg : Bool) : total neg [] (c.text ++ residue U) =
          signedVal neg c.digits + numbers U := by
        rw [Num.text, total_digits, nil_append, ih']
      rw [rest_num, append_assoc]
      cases s with
      | none => exact absurd rfl (hsign (.none, .num c) mem_cons_self)
      | plus =>
        have hstep : total neg ds (Sign.text .plus ++ (c.text ++ residue U)) =
            signedVal neg ds + total false [] (c.text ++ residue U) := rfl
        have hnumbers : numbers [(.plus, .num c)] = signedVal false c.digits := by
          simp [numbers, Sign.value, signedVal, Num.val]
        rw [hstep, hdigits, hnumbers]
      | minus =>
        have hstep : total neg ds (Sign.text .minus ++ (c.text ++ residue U)) =
            signedVal neg ds + total true [] (c.text ++ residue U) := rfl
        have hnumbers : numbers [(.minus, .num c)] = signedVal true c.digits := by
          simp [numbers, Sign.value, signedVal, Num.val]
        rw [hstep, hdigits, hnumbers]
    | mulExt c => exact absurd (hmul (s, .mulExt c) mem_cons_self) (by simp [Kind.mul])
    | _ => exact absurd (hfree _ mem_cons_self) (by simp [Kind.hasVar])

/-- Where terms are read as an integer, it is the sum of their numbers. -/
theorem finish_residue (hsign : Signed U) (hfree : Free U) :
    finish (residue U) = if (∀ q ∈ U, q.2.mul = false) ∧
      (U.filter fun q => !blank q).length ≤ 1 then
      some (numbers U) else none := by
  have hiff := finish_residue_ne_none hsign hfree
  unfold Left at hiff
  split_ifs with hleft
  · obtain ⟨b, hb⟩ := Option.ne_none_iff_exists'.1 (hiff.2 hleft)
    have htotal := (finish_spec hb).1
    have hvalue : total false [] (residue U) = numbers U := by
      rcases U with - | ⟨⟨s, k⟩, U⟩
      · rfl
      · have hmul' : ∀ q ∈ U, q.2.mul = false := fun q' hq' =>
          hleft.1 q' (mem_cons_of_mem (s, k) hq')
        have hrest := total_residue (U := U) hsign hfree.tail hmul'
        cases s with
        | none =>
          rw [residue_cons, numbers_cons]
          cases k with
          | ext =>
            rw [rest_ext, Sign.text, nil_append, hrest]
            rfl
          | num c =>
            rw [rest_num, Sign.text, nil_append, Num.text, total_digits, nil_append, hrest]
            simp [numbers, Sign.value, signedVal, Num.val]
          | mulExt c => exact absurd (hleft.1 (.none, .mulExt c) mem_cons_self) (by simp [Kind.mul])
          | _ => exact absurd (hfree _ mem_cons_self) (by simp [Kind.hasVar])
        | _ =>
          have hall := @total_residue ((_, k) :: U)
            (forall_mem_cons.2 ⟨by simp, hsign⟩) hfree hleft.1 false []
          rw [hall, signedVal_nil, zero_add]
    rw [hb, htotal, hvalue]
  · exact not_not.1 fun h => hleft (hiff.1 h)

end OffsetCopy
