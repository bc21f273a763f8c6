/-
# `_rewrite_read_connectors`

A right-hand side is rewritten one name after the other.  A scalar becomes its connector everywhere.
An occurrence of an array becomes the connector of the next number and what its bracket holds is
passed over, but the search for the name goes on inside the bracket, and an occurrence found there
moves the position back.
-/
import Mathlib.Data.Nat.Digits.Defs
import Mathlib.Data.List.Basic

open List

namespace TaskletReads

abbrev Name := List Char

/-- The equality of names, under a name of its own. -/
scoped instance lawfulName : LawfulBEq (List Char) := List.instLawfulBEq

/-- The words of an expression: identifiers, square brackets, other brackets, anything else. -/
inductive Tok
  | name (s : Name)
  | lsq
  | rsq
  | lpar
  | rpar
  | text (s : List Char)
deriving DecidableEq

/-! ## The function -/

/-- `_in_<name>` -/
def inName (nm : Name) : Name := ['_', 'i', 'n', '_'] ++ nm

/-- `_in_<name>_<n>` -/
def occName (nm : Name) (n : ℕ) : Name := inName nm ++ '_' :: Nat.toDigits 10 n

/-- How many words the scan for the closing bracket reads, from a depth on. -/
def closing : ℕ → List Tok → Option ℕ
  | _, [] => none
  | d, .lsq :: r => (closing (d + 1) r).map (· + 1)
  | d, .lpar :: r => (closing (d + 1) r).map (· + 1)
  | d, .rsq :: r => if d ≤ 1 then some 1 else (closing (d - 1) r).map (· + 1)
  | d, .rpar :: r => if d ≤ 1 then some 1 else (closing (d - 1) r).map (· + 1)
  | d, .name _ :: r => (closing d r).map (· + 1)
  | d, .text _ :: r => (closing d r).map (· + 1)

/-- The words of the bracket that follows a name. -/
def swallowed : List Tok → ℕ
  | .lsq :: r => match closing 1 r with
    | some k => k + 1
    | none => 0
  | _ => 0

/-- The loop over the occurrences of an array.  `skip` words stand before the position from which
the text is copied. -/
def rewriteArray (nm : Name) : ℕ → ℕ → List Tok → List Tok
  | _, _, [] => []
  | skip, n, t :: r =>
    if t = .name nm then .name (occName nm n) :: rewriteArray nm (swallowed r) (n + 1) r
    else match skip with
      | 0 => t :: rewriteArray nm 0 n r
      | k + 1 => rewriteArray nm k n r

def scalarWord (nm : Name) (t : Tok) : Tok := if t = .name nm then .name (inName nm) else t

def rewriteScalar (nm : Name) (code : List Tok) : List Tok := code.map (scalarWord nm)

def rewriteName (scalarReads : List Name) (code : List Tok) (nm : Name) : List Tok :=
  if nm ∈ scalarReads then rewriteScalar nm code else rewriteArray nm 0 0 code

def rewriteReadConnectors (code : List Tok) (sortedTokens scalarReads : List Name) : List Tok :=
  sortedTokens.foldl (rewriteName scalarReads) code

/-! ## Brackets -/

def Tok.weight : Tok → ℤ
  | .lsq | .lpar => 1
  | .rsq | .rpar => -1
  | _ => 0

/-- The brackets a text opens less those it closes. -/
def net (e : List Tok) : ℤ := (e.map Tok.weight).sum

@[simp] theorem net_nil : net [] = 0 := rfl

@[simp] theorem net_cons (t : Tok) (e : List Tok) : net (t :: e) = t.weight + net e := by simp [net]

@[simp] theorem net_append (e e' : List Tok) : net (e ++ e') = net e + net e' := by simp [net]

/-- What is read up to the closing bracket closes the depth, and its ends close more than they
open. -/
theorem closing_spec {d : ℕ} (hd : 1 ≤ d) {r : List Tok} {k : ℕ} (h : closing d r = some k) :
    net (r.take k) = -d ∧ ∀ j < k, net ((r.take k).drop j) ≤ -1 := by
  induction r generalizing d k with
  | nil => cases h
  | cons t r ih =>
    have hstep (d' : ℕ) (hd' : 1 ≤ d') (hweight : t.weight = (d' : ℤ) - d)
        (h : (closing d' r).map (· + 1) = some k) :
        net ((t :: r).take k) = -d ∧ ∀ j < k, net (((t :: r).take k).drop j) ≤ -1 := by
      obtain ⟨k, hk, rfl⟩ := Option.map_eq_some_iff.1 h
      obtain ⟨hnet, hends⟩ := ih hd' hk
      have hwhole : net ((t :: r).take (k + 1)) = -d := by
        rw [take_succ_cons, net_cons, hnet, hweight]
        omega
      refine ⟨hwhole, fun j hj => ?_⟩
      rcases j with - | j
      · rw [drop_zero, hwhole]
        omega
      · exact hends j (by omega)
    have hclose (hweight : t.weight = -1)
        (h : (if d ≤ 1 then some 1 else (closing (d - 1) r).map (· + 1)) = some k) :
        net ((t :: r).take k) = -d ∧ ∀ j < k, net (((t :: r).take k).drop j) ≤ -1 := by
      split_ifs at h with hle
      · cases h
        have hwhole : net ((t :: r).take 1) = -1 := by simp [hweight]
        refine ⟨by rw [hwhole]; omega, fun j hj => ?_⟩
        rw [show j = 0 by omega, drop_zero, hwhole]
      · exact hstep (d - 1) (by omega) (by omega) h
    cases t with
    | lsq => exact hstep (d + 1) (by omega) (by simp [Tok.weight]) h
    | lpar => exact hstep (d + 1) (by omega) (by simp [Tok.weight]) h
    | rsq => exact hclose rfl h
    | rpar => exact hclose rfl h
    | name s => exact hstep d hd (by simp [Tok.weight]) h
    | text s => exact hstep d hd (by simp [Tok.weight]) h

/-- A name's bracket as the rewriting passes over it: no end of it opens more than it closes. -/
theorem swallowed_spec (r : List Tok) :
    net (r.take (swallowed r)) = 0 ∧
      ∀ j ≤ swallowed r, net ((r.take (swallowed r)).drop j) ≤ 0 := by
  have hzero (h : swallowed r = 0) :
      net (r.take (swallowed r)) = 0 ∧
        ∀ j ≤ swallowed r, net ((r.take (swallowed r)).drop j) ≤ 0 := by
    rw [h]
    simp
  rcases r with - | ⟨t, r⟩
  · exact hzero rfl
  · cases t with
    | lsq =>
      cases hclosing : closing 1 r with
      | none => exact hzero (by simp [swallowed, hclosing])
      | some k =>
        obtain ⟨hnet, hends⟩ := closing_spec le_rfl hclosing
        have hk : swallowed (.lsq :: r) = k + 1 := by simp [swallowed, hclosing]
        have hwhole : net ((Tok.lsq :: r).take (k + 1)) = 0 := by
          rw [take_succ_cons, net_cons, hnet]
          rfl
        rw [hk]
        refine ⟨hwhole, fun j hj => ?_⟩
        rcases j with - | j
        · rw [drop_zero, hwhole]
        · rw [take_succ_cons, drop_succ_cons]
          rcases Nat.lt_or_ge j k with hlt | hge
          · have hend := hends j hlt
            omega
          · rw [drop_of_length_le (by rw [length_take]; omega)]
            rfl
    | _ => exact hzero rfl

theorem net_drop (r : List Tok) (k : ℕ) : net (r.drop k) = net r - net (r.take k) := by
  have hsplit := congrArg net (take_append_drop k r)
  rw [net_append] at hsplit
  omega

variable (nm : Name)

theorem rewriteArray_match (k n : ℕ) (r : List Tok) :
    rewriteArray nm k n (.name nm :: r) =
      .name (occName nm n) :: rewriteArray nm (swallowed r) (n + 1) r := by
  rw [rewriteArray.eq_def]
  simp

theorem rewriteArray_pass {nm : Name} {t : Tok} (ht : t ≠ .name nm) (n : ℕ) (r : List Tok) :
    rewriteArray nm 0 n (t :: r) = t :: rewriteArray nm 0 n r := by
  rw [rewriteArray.eq_def]
  simp [ht]

theorem rewriteArray_skip {nm : Name} {t : Tok} (ht : t ≠ .name nm) (k n : ℕ) (r : List Tok) :
    rewriteArray nm (k + 1) n (t :: r) = rewriteArray nm k n r := by
  rw [rewriteArray.eq_def]
  simp [ht]

/-- The rewriting never opens a bracket. -/
theorem net_rewriteArray_le (r : List Tok) : ∀ k n,
    (∀ j ≤ k, net ((r.take k).drop j) ≤ 0) → net (rewriteArray nm k n r) ≤ net (r.drop k) := by
  induction r with
  | nil =>
    intro k n _
    simp [rewriteArray]
  | cons t r ih =>
    intro k n hends
    by_cases ht : t = .name nm
    · subst ht
      obtain ⟨hnet, hends'⟩ := swallowed_spec r
      have hrest := ih (swallowed r) (n + 1) hends'
      rw [net_drop, hnet] at hrest
      have hwhole := hends 0 (Nat.zero_le k)
      rw [drop_zero] at hwhole
      rw [rewriteArray_match, net_cons, net_drop, net_cons]
      simp only [Tok.weight]
      omega
    · rcases k with - | k
      · have hrest := ih 0 n (by simp)
        rw [rewriteArray_pass ht, drop_zero, net_cons, net_cons]
        rw [drop_zero] at hrest
        omega
      · rw [rewriteArray_skip ht, drop_succ_cons]
        exact ih k n fun j hj => hends (j + 1) (by omega)

/-- An occurrence in a bracket that is passed over leaves a closing bracket too many. -/
theorem net_rewriteArray_lt (r : List Tok) : ∀ k n,
    (∀ j < k, net ((r.take k).drop j) ≤ -1) → .name nm ∈ r.take k →
    net (rewriteArray nm k n r) < net (r.drop k) := by
  induction r with
  | nil =>
    intro k n _ hmem
    simp at hmem
  | cons t r ih =>
    intro k n hends hmem
    rcases k with - | k
    · simp at hmem
    · by_cases ht : t = .name nm
      · subst ht
        obtain ⟨hnet, hends'⟩ := swallowed_spec r
        have hrest := net_rewriteArray_le nm r (swallowed r) (n + 1) hends'
        rw [net_drop, hnet] at hrest
        have hwhole := hends 0 (Nat.succ_pos k)
        rw [drop_zero] at hwhole
        rw [rewriteArray_match, net_cons, net_drop, net_cons]
        simp only [Tok.weight]
        omega
      · rw [rewriteArray_skip ht, drop_succ_cons]
        refine ih k n (fun j hj => hends (j + 1) (by omega)) ?_
        rw [take_succ_cons, mem_cons] at hmem
        exact hmem.resolve_left fun h => ht h.symm

theorem net_rewriteScalar (e : List Tok) : net (rewriteScalar nm e) = net e := by
  induction e with
  | nil => rfl
  | cons t e ih =>
    have hweight : (scalarWord nm t).weight = t.weight := by
      unfold scalarWord
      split_ifs with h
      · rw [h]
        rfl
      · rfl
    have hcons : rewriteScalar nm (t :: e) = scalarWord nm t :: rewriteScalar nm e := rfl
    rw [hcons, net_cons, net_cons, ih, hweight]

theorem net_rewriteName_le (scalarReads : List Name) (e : List Tok) (nm : Name) :
    net (rewriteName scalarReads e nm) ≤ net e := by
  unfold rewriteName
  split_ifs
  · exact (net_rewriteScalar nm e).le
  · have hle := net_rewriteArray_le nm e 0 0 (by simp)
    rwa [drop_zero] at hle

theorem net_rewrites_le (scalarReads order : List Name) (e : List Tok) :
    net (order.foldl (rewriteName scalarReads) e) ≤ net e := by
  induction order generalizing e with
  | nil => exact le_rfl
  | cons nm order ih => exact (ih _).trans (net_rewriteName_le scalarReads e nm)

/-! ## Reads -/

/-- An occurrence of an array: bare, with a subscript that loads nothing, or with one that holds a
load between other words.  A subscript with more loads is a `Term`; the list of the accesses then
has a load that is not directly before the access it indexes. -/
inductive Read
  | bare (nm : Name)
  | flat (nm : Name) (sub : List Tok)
  | via (nm : Name) (pre : List Tok) (inner : Read) (post : List Tok)

def Read.name : Read → Name
  | .bare nm => nm
  | .flat nm _ => nm
  | .via nm _ _ _ => nm

/-- The arrays from the outermost on. -/
def Read.names : Read → List Name
  | .bare nm => [nm]
  | .flat nm _ => [nm]
  | .via nm _ inner _ => nm :: inner.names

def Read.text : Read → List Tok
  | .bare nm => [.name nm]
  | .flat nm sub => .name nm :: .lsq :: (sub ++ [.rsq])
  | .via nm pre inner post => .name nm :: .lsq :: (pre ++ inner.text ++ post ++ [.rsq])

/-- The words of the subscripts beside the arrays. -/
def Read.words : Read → List Tok
  | .bare _ => []
  | .flat _ sub => sub
  | .via _ pre inner post => pre ++ inner.words ++ post

/-- The depth after a text, where it never closes the bracket around it. -/
def level : ℕ → List Tok → Option ℕ
  | d, [] => some d
  | d, .lsq :: r => level (d + 1) r
  | d, .lpar :: r => level (d + 1) r
  | d, .rsq :: r => if d ≤ 1 then none else level (d - 1) r
  | d, .rpar :: r => if d ≤ 1 then none else level (d - 1) r
  | d, .name _ :: r => level d r
  | d, .text _ :: r => level d r

/-- Each subscript closes the brackets it opens, and its square brackets are those of its loads. -/
def Read.Balanced : Read → Prop
  | .bare _ => True
  | .flat _ sub => level 1 sub = some 1 ∧ .lsq ∉ sub
  | .via _ pre inner post => level 1 (pre ++ post) = some 1 ∧ .lsq ∉ pre ++ post ∧ inner.Balanced

theorem level_append (d : ℕ) (e e' : List Tok) :
    level d (e ++ e') = (level d e).bind fun d => level d e' := by
  induction e generalizing d with
  | nil => rfl
  | cons t e ih =>
    cases t with
    | rsq =>
      simp only [cons_append, level]
      split_ifs
      · rfl
      · exact ih _
    | rpar =>
      simp only [cons_append, level]
      split_ifs
      · rfl
      · exact ih _
    | _ => exact ih _

theorem level_spec {d d' : ℕ} (hd : 1 ≤ d) {e : List Tok} (h : level d e = some d') :
    1 ≤ d' ∧ net e = (d' : ℤ) - d ∧ (∀ k, level (d + k) e = some (d' + k)) ∧
      ∀ r, closing d (e ++ r) = (closing d' r).map (· + e.length) := by
  induction e generalizing d with
  | nil =>
    cases h
    exact ⟨hd, by simp, fun k => rfl, fun r => by simp⟩
  | cons t e ih =>
    have hmap {d'' : ℕ} (hd'' : 1 ≤ d'') (h : level d'' e = some d') (r : List Tok) :
        (closing d'' (e ++ r)).map (· + 1) = (closing d' r).map (· + (t :: e).length) := by
      rw [(ih hd'' h).2.2.2 r, Option.map_map]
      rfl
    have hclose (hweight : t.weight = -1) (hlevel : ∀ d, level d (t :: e) =
        if d ≤ 1 then none else level (d - 1) e) (hclosing : ∀ d r, closing d (t :: e ++ r) =
        if d ≤ 1 then some 1 else (closing (d - 1) (e ++ r)).map (· + 1)) :
        1 ≤ d' ∧ net (t :: e) = (d' : ℤ) - d ∧ (∀ k, level (d + k) (t :: e) = some (d' + k)) ∧
          ∀ r, closing d (t :: e ++ r) = (closing d' r).map (· + (t :: e).length) := by
      rw [hlevel] at h
      split_ifs at h with hle
      have hd'' : 1 ≤ d - 1 := by omega
      obtain ⟨hd', hnet, hshift, -⟩ := ih hd'' h
      refine ⟨hd', by rw [net_cons, hnet, hweight]; omega, fun k => ?_, fun r => ?_⟩
      · rw [hlevel, if_neg (by omega), show d + k - 1 = d - 1 + k by omega]
        exact hshift k
      · rw [hclosing, if_neg hle]
        exact hmap hd'' h r
    have hopen (hweight : t.weight = 1) (hlevel : ∀ d, level d (t :: e) = level (d + 1) e)
        (hclosing : ∀ d r, closing d (t :: e ++ r) = (closing (d + 1) (e ++ r)).map (· + 1)) :
        1 ≤ d' ∧ net (t :: e) = (d' : ℤ) - d ∧ (∀ k, level (d + k) (t :: e) = some (d' + k)) ∧
          ∀ r, closing d (t :: e ++ r) = (closing d' r).map (· + (t :: e).length) := by
      rw [hlevel] at h
      have hd'' : 1 ≤ d + 1 := by omega
      obtain ⟨hd', hnet, hshift, -⟩ := ih hd'' h
      refine ⟨hd', by rw [net_cons, hnet, hweight]; omega, fun k => ?_, fun r => ?_⟩
      · rw [hlevel, show d + k + 1 = d + 1 + k by omega]
        exact hshift k
      · rw [hclosing]
        exact hmap hd'' h r
    have hother (hweight : t.weight = 0) (hlevel : ∀ d, level d (t :: e) = level d e)
        (hclosing : ∀ d r, closing d (t :: e ++ r) = (closing d (e ++ r)).map (· + 1)) :
        1 ≤ d' ∧ net (t :: e) = (d' : ℤ) - d ∧ (∀ k, level (d + k) (t :: e) = some (d' + k)) ∧
          ∀ r, closing d (t :: e ++ r) = (closing d' r).map (· + (t :: e).length) := by
      rw [hlevel] at h
      obtain ⟨hd', hnet, hshift, -⟩ := ih hd h
      refine ⟨hd', by rw [net_cons, hnet, hweight]; omega, fun k => ?_, fun r => ?_⟩
      · rw [hlevel]
        exact hshift k
      · rw [hclosing]
        exact hmap hd h r
    cases t with
    | lsq => exact hopen rfl (fun _ => rfl) fun _ _ => rfl
    | lpar => exact hopen rfl (fun _ => rfl) fun _ _ => rfl
    | rsq => exact hclose rfl (fun _ => rfl) fun _ _ => rfl
    | rpar => exact hclose rfl (fun _ => rfl) fun _ _ => rfl
    | name s => exact hother rfl (fun _ => rfl) fun _ _ => rfl
    | text s => exact hother rfl (fun _ => rfl) fun _ _ => rfl

end TaskletReads
