/-
# Two's-complement integers of a fixed width

The integers a word of `w` bits holds (`Fits`), what storing an integer in such
a word keeps of it, and the three integer divisions: the floored one, the step
that turns it into the truncating one, and their remainders.
-/
import Mathlib.Data.Int.ModEq
import Mathlib.Tactic.Linarith
import Mathlib.Data.Nat.Log

namespace TwosComplement

/-! ## The integers of a word -/

/-- `n` is representable in `w` bits. -/
def Fits (w : ℕ) (n : ℤ) : Prop := -2 ^ (w - 1) ≤ n ∧ n < 2 ^ (w - 1)

instance (w : ℕ) (n : ℤ) : Decidable (Fits w n) := by
  unfold Fits
  infer_instance

variable {w : ℕ} {a b : ℤ}

/-- A word holds only what it can represent. -/
theorem fits_toInt (v : BitVec w) : Fits w v.toInt :=
  ⟨BitVec.le_toInt v, BitVec.toInt_lt⟩

/-- Storing a representable integer keeps it. -/
theorem toInt_ofInt_of_fits {n : ℤ} (hw : 0 < w) (h : Fits w n) :
    (BitVec.ofInt w n).toInt = n :=
  BitVec.toInt_ofInt_eq_self hw h.1 h.2

/-- Anything no larger in magnitude than a representable integer is representable,
the minimum apart. -/
theorem fits_of_natAbs_lt {m n : ℤ} (hn : Fits w n) (h : m.natAbs < n.natAbs) :
    Fits w m := by
  unfold Fits at *
  omega

/-- The opposite of a representable integer is representable unless it is the minimum. -/
theorem fits_neg_iff {n : ℤ} (hn : Fits w n) : Fits w (-n) ↔ n ≠ -2 ^ (w - 1) := by
  unfold Fits at *
  constructor
  · rintro ⟨-, h⟩ rfl
    omega
  · intro h
    constructor <;> omega

/-! ## Division -/

/-- **The truncating quotient** is the floored one, stepped back towards zero where it
is negative and inexact. -/
theorem tdiv_eq_fdiv_step (hb : b ≠ 0) :
    a.tdiv b = if a.fmod b ≠ 0 ∧ ((a < 0) ≠ (b < 0)) then a.fdiv b + 1 else a.fdiv b := by
  have hdvd : a.fmod b = 0 ↔ b ∣ a := (Int.dvd_iff_fmod_eq_zero).symm
  rw [Int.tdiv_eq_fdiv]
  by_cases h : b ∣ a
  · simp [h, hdvd.mpr h]
  · have hne : a.fmod b ≠ 0 := fun h' => h (hdvd.mp h')
    have ha : a ≠ 0 := by
      rintro rfl
      exact h (dvd_zero b)
    rw [if_neg h]
    by_cases ha0 : 0 ≤ a <;> by_cases hb0 : 0 ≤ b
    · simp [ha0, hb0, not_lt.mpr ha0, not_lt.mpr hb0]
    · have hb' : b < 0 := not_le.mp hb0
      simp [ha0, hb0, hne, hb', not_lt.mpr ha0]
    · have ha' : a < 0 := not_le.mp ha0
      have hb' : 0 < b := lt_of_le_of_ne hb0 hb.symm
      simp [ha0, hb0, hne, ha', not_lt.mpr hb0, Int.sign_eq_one_of_pos hb']
    · have ha' : a < 0 := not_le.mp ha0
      have hb' : b < 0 := not_le.mp hb0
      simp [ha0, hb0, ha', hb', Int.sign_eq_neg_one_of_neg hb']

/-- A truncated remainder is representable with the divisor. -/
theorem fits_tmod (hb : Fits w b) (h0 : b ≠ 0) : Fits w (a.tmod b) := by
  apply fits_of_natAbs_lt hb
  rw [Int.natAbs_tmod]
  apply Nat.mod_lt
  omega

/-- A floored remainder is representable with the divisor. -/
theorem fits_fmod (hb : Fits w b) (h0 : b ≠ 0) : Fits w (a.fmod b) := by
  rcases lt_or_gt_of_ne h0 with hneg | hpos
  · -- the remainder by `b` is the opposite of a remainder by `-b`
    have hb' : 0 < -b := by omega
    have h1 := Int.fmod_nonneg_of_pos (-a) hb'
    have h2 := Int.fmod_lt_of_pos (-a) hb'
    rw [Int.neg_fmod_neg] at h1 h2
    unfold Fits at *
    constructor <;> omega
  · have h1 := Int.fmod_nonneg_of_pos a hpos
    have h2 := Int.fmod_lt_of_pos a hpos
    unfold Fits at *
    constructor <;> omega

end TwosComplement
