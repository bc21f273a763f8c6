/-
# Symbolic expressions

Expressions over integer symbols as a computer algebra system offers them: arithmetic, `expand`,
the coefficient of a symbol, the symbols of an expression, the sign of a number, the
replacement of symbols.  What the operations are for is their value in an environment.  The
expressions of degree one are an instance.
-/
import Mathlib.Algebra.BigOperators.Ring.Finset
import Mathlib.Tactic.Linarith
import Mathlib.Tactic.Ring

/-- Expressions `E` over symbols `V`. -/
class SymbolicExpr (V : outParam Type) (E : Type) extends Add E, Sub E, Mul E where
  int : ℤ → E
  symbol : V → E
  expand : E → E
  coeff : E → V → E
  freeSymbols : E → Finset V
  isNumber : E → Bool
  positive : E → Bool
  nonnegative : E → Bool
  xreplace : E → (V → Option ℤ) → E
  value : E → (V → ℤ) → ℚ

namespace SymbolicExpr

variable {V E : Type} [DecidableEq V]

/-- The operations mean what their names say. -/
class Lawful (V : outParam Type) (E : Type) [DecidableEq V] [SymbolicExpr V E] : Prop where
  value_add : ∀ (a b : E) env, value (a + b) env = value a env + value b env
  value_sub : ∀ (a b : E) env, value (a - b) env = value a env - value b env
  value_mul : ∀ (c e : E) env, isNumber c = true → value (c * e) env = value c env * value e env
  value_int : ∀ z env, value (int z : E) env = z
  value_symbol : ∀ v env, value (symbol v : E) env = env v
  value_expand : ∀ (e : E) env, value (expand e) env = value e env
  value_congr : ∀ (e : E) env env', (∀ v ∈ freeSymbols e, env v = env' v) →
    value e env = value e env'
  value_xreplace : ∀ (e : E) (s : V → Option ℤ) env, (∀ v ∈ freeSymbols e, (s v).isSome) →
    value (xreplace e s) env = value e fun v => (s v).getD (env v)
  number_int : ∀ z, isNumber (int z : E) = true
  free_number : ∀ e : E, isNumber e = true → freeSymbols e = ∅
  free_add : ∀ a b : E, freeSymbols (a + b) ⊆ freeSymbols a ∪ freeSymbols b
  free_sub : ∀ a b : E, freeSymbols (a - b) ⊆ freeSymbols a ∪ freeSymbols b
  free_mul : ∀ c e : E, isNumber c = true → freeSymbols (c * e) ⊆ freeSymbols e
  free_int : ∀ z, freeSymbols (int z : E) = ∅
  free_symbol : ∀ v, freeSymbols (symbol v : E) ⊆ {v}
  free_expand : ∀ e : E, freeSymbols (expand e) ⊆ freeSymbols e
  positive_iff : ∀ (e : E) env, isNumber e = true → (positive e = true ↔ 0 < value e env)
  nonnegative_iff : ∀ (e : E) env, isNumber e = true → (nonnegative e = true ↔ 0 ≤ value e env)

/-- An environment with one symbol changed. -/
def assign (env : V → ℤ) (v : V) (z : ℤ) : V → ℤ := fun w => if w = v then z else env w

@[simp] theorem assign_same (env : V → ℤ) (v : V) (z : ℤ) : assign env v z v = z := by
  simp [assign]

theorem assign_of_ne (env : V → ℤ) {v w : V} (z : ℤ) (h : w ≠ v) : assign env v z w = env w := by
  simp [assign, h]

variable [SymbolicExpr V E] [Lawful V E]

variable {v : V}

theorem value_assign (e : E) (env : V → ℤ) (z : ℤ) (h : v ∉ freeSymbols e) :
    value e (assign env v z) = value e env := by
  apply Lawful.value_congr
  intro w hw
  exact assign_of_ne env z fun hwv => h (hwv ▸ hw)

theorem notMem_expand {e : E} (h : v ∉ freeSymbols e) : v ∉ freeSymbols (expand e) :=
  fun hv => h (Lawful.free_expand e hv)

theorem notMem_sub {a b : E} (ha : v ∉ freeSymbols a) (hb : v ∉ freeSymbols b) :
    v ∉ freeSymbols (a - b) := by
  intro hv
  rcases Finset.mem_union.mp (Lawful.free_sub a b hv) with h | h
  · exact ha h
  · exact hb h

theorem notMem_add {a b : E} (ha : v ∉ freeSymbols a) (hb : v ∉ freeSymbols b) :
    v ∉ freeSymbols (a + b) := by
  intro hv
  rcases Finset.mem_union.mp (Lawful.free_add a b hv) with h | h
  · exact ha h
  · exact hb h

theorem notMem_mul {c e : E} (hc : isNumber c = true) (he : v ∉ freeSymbols e) :
    v ∉ freeSymbols (c * e) :=
  fun hv => he (Lawful.free_mul c e hc hv)

theorem notMem_symbol {v w : V} (h : w ≠ v) : w ∉ freeSymbols (symbol v : E) :=
  fun hw => h (Finset.mem_singleton.mp (Lawful.free_symbol v hw))

/-- What is left of an expression when the term of a symbol is taken away. -/
theorem value_rest {c : E} (e : E) (v : V) (hc : isNumber c = true) (env : V → ℤ) :
    value e env = value (expand (e - c * symbol v)) env + value c env * env v := by
  rw [Lawful.value_expand, Lawful.value_sub, Lawful.value_mul _ _ _ hc, Lawful.value_symbol]
  ring

/-- The value where the symbol of a term is replaced by a bound. -/
theorem value_bound {c rest b : E} (hc : isNumber c = true) (env : V → ℤ) :
    value (expand (rest + c * b)) env = value rest env + value c env * value b env := by
  rw [Lawful.value_expand, Lawful.value_add, Lawful.value_mul _ _ _ hc]

end SymbolicExpr

/-! ## Expressions of degree one -/

/-- `const + ∑ v, coeff v * v`. -/
structure Affine (V : Type) where
  const : ℤ
  coeff : V → ℤ

namespace Affine

variable {V : Type} [Fintype V]

instance [DecidableEq V] : DecidableEq (Affine V) := fun a b =>
  decidable_of_iff (a.const = b.const ∧
    a.coeff = b.coeff) ⟨fun h => by cases a; cases b; simp_all, fun h => by simp [h]⟩

/-- The value of the terms is summed over the symbols. -/
def value (e : Affine V) (env : V → ℤ) : ℤ := e.const + ∑ v, e.coeff v * env v

def add (a b : Affine V) : Affine V := ⟨a.const + b.const, fun v => a.coeff v + b.coeff v⟩

def sub (a b : Affine V) : Affine V := ⟨a.const - b.const, fun v => a.coeff v - b.coeff v⟩

/-- Multiplication by a number; a product of two expressions with symbols is of degree two. -/
def mul (a b : Affine V) : Affine V := ⟨a.const * b.const, fun v => a.const * b.coeff v⟩

def int (z : ℤ) : Affine V := ⟨z, fun _ => 0⟩

def symbol [DecidableEq V] (v : V) : Affine V := ⟨0, fun w => if w = v then 1 else 0⟩

def freeSymbols (e : Affine V) : Finset V := Finset.univ.filter fun v => e.coeff v ≠ 0

def xreplace (e : Affine V) (s : V → Option ℤ) : Affine V :=
  ⟨e.const + ∑ v, e.coeff v * (s v).getD 0, fun v => if (s v).isSome then 0 else e.coeff v⟩

instance [DecidableEq V] : SymbolicExpr V (Affine V) where
  add := add
  sub := sub
  mul := mul
  int := int
  symbol := symbol
  expand e := e
  coeff e v := int (e.coeff v)
  freeSymbols := freeSymbols
  isNumber e := decide (∀ v, e.coeff v = 0)
  positive e := decide (0 < e.const)
  nonnegative e := decide (0 ≤ e.const)
  xreplace := xreplace
  value e env := (e.value env : ℤ)

variable {e : Affine V}

theorem value_of_number (h : ∀ v, e.coeff v = 0) (env : V → ℤ) : e.value env = e.const := by
  simp [value, h]

theorem value_add (a b : Affine V) (env : V → ℤ) :
    (a.add b).value env = a.value env + b.value env := by
  simp only [value, add, add_mul, Finset.sum_add_distrib]
  ring

theorem value_sub (a b : Affine V) (env : V → ℤ) :
    (a.sub b).value env = a.value env - b.value env := by
  simp only [value, sub, sub_mul, Finset.sum_sub_distrib]
  ring

theorem value_mul {c : Affine V} (h : ∀ v, c.coeff v = 0) (e : Affine V) (env : V → ℤ) :
    (c.mul e).value env = c.value env * e.value env := by
  rw [value_of_number h]
  simp only [value, mul, mul_add, Finset.mul_sum, mul_assoc]

theorem mem_freeSymbols {v : V} : v ∈ e.freeSymbols ↔ e.coeff v ≠ 0 := by
  simp [freeSymbols]

theorem value_congr {env env' : V → ℤ} (h : ∀ v ∈ e.freeSymbols, env v = env' v) :
    e.value env = e.value env' := by
  have hterm : ∀ v, e.coeff v * env v = e.coeff v * env' v := by
    intro v
    by_cases hv : e.coeff v = 0
    · simp [hv]
    · rw [h v (mem_freeSymbols.mpr hv)]
  simp only [value, hterm]

theorem value_xreplace {s : V → Option ℤ} (h : ∀ v ∈ e.freeSymbols, (s v).isSome) (env : V → ℤ) :
    (e.xreplace s).value env = e.value fun v => (s v).getD (env v) := by
  simp only [value, xreplace, add_assoc, ← Finset.sum_add_distrib]
  congr 1
  refine Finset.sum_congr rfl fun v _ => ?_
  by_cases hv : e.coeff v = 0
  · simp [hv]
  · obtain ⟨z, hz⟩ := Option.isSome_iff_exists.mp (h v (mem_freeSymbols.mpr hv))
    simp [hz]

instance [DecidableEq V] : SymbolicExpr.Lawful V (Affine V) where
  value_add a b env := by
    show ((a.add b).value env : ℚ) = a.value env + b.value env
    rw [value_add]
    exact Int.cast_add _ _
  value_sub a b env := by
    show ((a.sub b).value env : ℚ) = a.value env - b.value env
    rw [value_sub]
    exact Int.cast_sub _ _
  value_mul c e env h := by
    show ((c.mul e).value env : ℚ) = c.value env * e.value env
    rw [value_mul (of_decide_eq_true h)]
    exact Int.cast_mul _ _
  value_int z env := by
    show ((int z).value env : ℚ) = z
    simp [value, int]
  value_symbol v env := by
    show ((symbol v).value env : ℚ) = env v
    simp [value, symbol]
  value_expand _ _ := rfl
  value_congr _ _ _ h := congrArg Int.cast (value_congr h)
  value_xreplace _ _ env h := congrArg Int.cast (value_xreplace h env)
  number_int z := by
    show decide (∀ _ : V, (0 : ℤ) = 0) = true
    simp
  free_number e h := by
    have he : ∀ v, e.coeff v = 0 := of_decide_eq_true h
    show freeSymbols e = ∅
    simp [freeSymbols, he]
  free_add a b v hv := by
    have h : a.coeff v + b.coeff v ≠ 0 := mem_freeSymbols.mp hv
    refine Finset.mem_union.mpr ?_
    by_cases ha : a.coeff v = 0
    · exact .inr (mem_freeSymbols.mpr fun hb => h (by rw [ha, hb]; rfl))
    · exact .inl (mem_freeSymbols.mpr ha)
  free_sub a b v hv := by
    have h : a.coeff v - b.coeff v ≠ 0 := mem_freeSymbols.mp hv
    refine Finset.mem_union.mpr ?_
    by_cases ha : a.coeff v = 0
    · exact .inr (mem_freeSymbols.mpr fun hb => h (by rw [ha, hb]; rfl))
    · exact .inl (mem_freeSymbols.mpr ha)
  free_mul c e _ v hv := by
    have h : c.const * e.coeff v ≠ 0 := mem_freeSymbols.mp hv
    exact mem_freeSymbols.mpr (right_ne_zero_of_mul h)
  free_int z := by
    show freeSymbols (int z) = ∅
    simp [freeSymbols, int]
  free_symbol v w hw := by
    have h : (symbol v).coeff w ≠ 0 := mem_freeSymbols.mp hw
    refine Finset.mem_singleton.mpr ?_
    by_contra hne
    exact h (by simp [symbol, hne])
  free_expand _ := Finset.Subset.refl _
  positive_iff e env h := by
    show decide (0 < e.const) = true ↔ (0 : ℚ) < e.value env
    rw [value_of_number (of_decide_eq_true h), decide_eq_true_iff, Int.cast_pos]
  nonnegative_iff e env h := by
    show decide (0 ≤ e.const) = true ↔ (0 : ℚ) ≤ e.value env
    rw [value_of_number (of_decide_eq_true h), decide_eq_true_iff, Int.cast_nonneg_iff]

end Affine
