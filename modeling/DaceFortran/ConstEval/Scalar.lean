/-
# The processor, numpy scalars and Fortran values

What constant evaluation computes with: the numpy scalars of
`ast_desugaring/types.py` (`NUMPY_TYPES`), with numpy's promotion and its
arithmetic modulo the width, and, to compare them with, the values Fortran gives
a constant expression.

`Processor` stands for what neither side defines here: the floating-point
operations (numpy's and Fortran's at one kind are the same), the decimal text of
a number, the constants of the intrinsic modules and the processor's real kinds.
-/
import DaceFortran.Lib.TwosComplement

open TwosComplement

namespace ConstEval

/-! ## Operators -/

/-- The arithmetic operators of `BINARY_OPS`. -/
inductive ArithOp where
  | add | sub | mul | div | pow
  deriving DecidableEq

/-- The relational operators of `BINARY_OPS`. -/
inductive CmpOp where
  | lt | gt | eq | ne | le | ge
  deriving DecidableEq

/-- The relation between two integers. -/
def CmpOp.onInt : CmpOp → ℤ → ℤ → Bool
  | .lt, a, b => a < b
  | .gt, a, b => a > b
  | .eq, a, b => a = b
  | .ne, a, b => a ≠ b
  | .le, a, b => a ≤ b
  | .ge, a, b => a ≥ b

/-- The entries of `INTR_FNS` that fold on real arguments only. -/
inductive NumpyFn where
  | fabs | arccos | imag | trunc | logicalAnd | round | arcsin | arctan | arctan2 | conj
  | cos | cosh | exp | log | log10 | max | min | logicalNot | logicalOr | real | copysign
  | sin | sinh | sqrt | tan | tanh | logicalXor
  deriving DecidableEq

/-! ## The processor -/

/-- A decimal number: the digits are those of the significand without its point. -/
structure Decimal where
  negative : Bool
  digits : ℕ
  exponent : ℤ
  deriving DecidableEq

/-- The same number with the sign dropped. -/
def Decimal.abs (d : Decimal) : Decimal := { d with negative := false }

/-- numpy's integer scalar types. -/
inductive NpInt where
  | int8 | int16 | int32 | int64
  deriving DecidableEq

/-- numpy's floating scalar types. -/
inductive NpReal where
  | float32 | float64
  deriving DecidableEq

/-- `count_bytes` of an integer type. -/
def NpInt.countBytes : NpInt → ℕ
  | .int8 => 1
  | .int16 => 2
  | .int32 => 4
  | .int64 => 8

/-- `count_bytes` of a floating type. -/
def NpReal.countBytes : NpReal → ℕ
  | .float32 => 4
  | .float64 => 8

/-- A real kind of the processor: its kind parameter, decimal precision and decimal
exponent range. -/
structure RealKind where
  kind : ℕ
  precision : ℤ
  range : ℤ
  deriving DecidableEq

/-- What the machine and the two languages' libraries provide. -/
structure Processor where
  /-- The numbers of the real kind `k`; numpy's `float32` is kind 4, `float64` kind 8. -/
  R : ℕ → Type
  /-- The number a decimal text denotes. -/
  read : (k : ℕ) → Decimal → R k
  /-- The text numpy prints, for a finite number. -/
  write : {k : ℕ} → R k → Option Decimal
  read_write : ∀ {k : ℕ} (x : R k) (d : Decimal), write x = some d → read k d = x
  arith : ArithOp → {k : ℕ} → R k → R k → R k
  cmp : CmpOp → {k : ℕ} → R k → R k → Bool
  neg : {k : ℕ} → R k → R k
  read_neg : ∀ (k : ℕ) (d : Decimal), d.negative = true → neg (read k d.abs) = read k d
  write_abs : ∀ {k : ℕ} (x : R k) (d : Decimal), write x = some d → d.negative = true →
    write (read k d.abs) = some d.abs
  ofInt : (k : ℕ) → ℤ → R k
  convert : (k k' : ℕ) → R k → R k'
  convert_self : ∀ (k : ℕ) (x : R k), convert k k x = x
  /-- The integer part, for a finite number. -/
  trunc : {k : ℕ} → R k → Option ℤ
  /-- `np.fmod` and Fortran's `MOD`; `np.mod` and Fortran's `MODULO`. -/
  fmod : {k : ℕ} → R k → R k → R k
  modulo : {k : ℕ} → R k → R k → R k
  /-- Whether Python takes the number for true. -/
  truthy : {k : ℕ} → R k → Bool
  /-- The numpy functions of `INTR_FNS` on real arguments; `none` is an exception. -/
  call : NumpyFn → List (Σ t : NpReal, R t.countBytes) →
    Option ((Σ t : NpReal, R t.countBytes) ⊕ Bool)
  /-- `sys.float_info.epsilon`. -/
  epsilon : R 8
  /-- The default-integer constants of the intrinsic modules (`iso_c_binding` and the like). -/
  moduleConst : String → Option ℤ
  /-- The real kinds, by growing precision: IEEE single and double, and others that are
  less precise than both or more precise than both. -/
  narrow : List RealKind
  wide : List RealKind
  narrow_precision : ∀ r ∈ narrow, r.precision ≤ 3
  wide_precision : ∀ r ∈ wide, 15 < r.precision

/-- All real kinds of the processor. -/
def Processor.realKinds (P : Processor) : List RealKind :=
  P.narrow ++ [⟨4, 6, 37⟩, ⟨8, 15, 307⟩] ++ P.wide

/-! ## Exact numbers -/

/-- The number a decimal text denotes, exactly. -/
def Decimal.toRat (d : Decimal) : ℚ :=
  let magnitude : ℚ :=
    if 0 ≤ d.exponent then d.digits * 10 ^ d.exponent.toNat
    else d.digits / 10 ^ (-d.exponent).toNat
  if d.negative then -magnitude else magnitude

/-- The text of an integral number; the others are left without one. -/
def Decimal.ofRat (x : ℚ) : Option Decimal :=
  if x.den = 1 then some ⟨x.num < 0, x.num.natAbs, 0⟩ else none

variable {d : Decimal} {n : ℤ}

/-- An integral number is read back from its text. -/
theorem Decimal.toRat_ofRat {x : ℚ} (h : Decimal.ofRat x = some d) :
    d.toRat = x := by
  unfold Decimal.ofRat at h
  split_ifs at h with hden
  obtain rfl := Option.some.inj h
  have hx : (x.num : ℚ) = x := Rat.coe_int_num_of_den_eq_one hden
  by_cases hneg : x.num < 0
  · have habs : ((x.num.natAbs : ℕ) : ℚ) = -x.num := by
      rw [Nat.cast_natAbs, abs_of_neg hneg]
      push_cast
      rfl
    simp [Decimal.toRat, hneg, habs, hx]
  · have habs : ((x.num.natAbs : ℕ) : ℚ) = x.num := by
      rw [Nat.cast_natAbs, abs_of_nonneg (not_lt.mp hneg)]
    simp [Decimal.toRat, hneg, habs, hx]

/-- The magnitude of an integral number has the text of the number without its sign. -/
theorem Decimal.ofRat_abs {x : ℚ} (h : Decimal.ofRat x = some d) :
    Decimal.ofRat d.abs.toRat = some d.abs := by
  unfold Decimal.ofRat at h
  split_ifs at h with hden
  obtain rfl := Option.some.inj h
  simp [Decimal.abs, Decimal.toRat, Decimal.ofRat, Int.natAbs_abs]

/-- The sign of a text is that of its number. -/
theorem Decimal.neg_toRat_abs (h : d.negative = true) : -d.abs.toRat = d.toRat := by
  unfold Decimal.toRat Decimal.abs
  rw [if_pos h]
  rfl

/-- Exact rational arithmetic on IEEE kinds: a processor that rounds nothing. -/
def exactProcessor : Processor where
  R _ := ℚ
  read _ := Decimal.toRat
  write := Decimal.ofRat
  read_write _ _ h := Decimal.toRat_ofRat h
  arith
    | .add => fun x y => x + y
    | .sub => fun x y => x - y
    | .mul => fun x y => x * y
    | .div => fun x y => x / y
    | .pow => fun x y => if 0 ≤ y.num then x ^ y.num.toNat else (x ^ (-y.num).toNat)⁻¹
  cmp
    | .lt => fun x y => x < y
    | .gt => fun x y => x > y
    | .eq => fun x y => x = y
    | .ne => fun x y => x ≠ y
    | .le => fun x y => x ≤ y
    | .ge => fun x y => x ≥ y
  neg x := -x
  read_neg _ _ h := Decimal.neg_toRat_abs h
  write_abs _ _ h _ := Decimal.ofRat_abs h
  ofInt _ n := n
  convert _ _ x := x
  convert_self _ _ := rfl
  trunc x := some (x.num.tdiv x.den)
  fmod x y := x - y * ((x / y).num.tdiv (x / y).den : ℤ)
  modulo x y := x - y * ((x / y).floor : ℤ)
  truthy x := x ≠ 0
  call _ _ := none
  epsilon := 1 / 2 ^ 52
  moduleConst _ := none
  narrow := []
  wide := []
  narrow_precision _ h := nomatch h
  wide_precision _ h := nomatch h

/-! ## Fortran values -/

/-- A value of an intrinsic type, with its kind. -/
inductive Value (P : Processor) where
  | int (k : ℕ) (n : ℤ)
  | real (k : ℕ) (x : P.R k)
  | logical (k : ℕ) (b : Bool)

/-! ## numpy scalars -/

/-- A scalar of `NUMPY_TYPES`; an integer is the word that holds it. -/
inductive Scalar (P : Processor) where
  | int (t : NpInt) (v : BitVec (8 * t.countBytes))
  | real (t : NpReal) (x : P.R t.countBytes)
  | bool (b : Bool)

variable {P : Processor}

/-- The Fortran value of a scalar: that of the literal written for it. -/
def Scalar.value : Scalar P → Value P
  | .int t v => .int t.countBytes v.toInt
  | .real t x => .real t.countBytes x
  | .bool b => .logical 4 b

/-- The scalar that holds an integer, modulo its width. -/
def Scalar.ofInt (t : NpInt) (n : ℤ) : Scalar P := .int t (BitVec.ofInt _ n)

/-- Whether Python takes the scalar for true. -/
def Scalar.truthy : Scalar P → Bool
  | .int _ v => v.toInt ≠ 0
  | .real _ x => P.truthy x
  | .bool b => b

@[simp] theorem Scalar.value_int (t : NpInt) (v : BitVec (8 * t.countBytes)) :
    (Scalar.int t v : Scalar P).value = .int t.countBytes v.toInt := rfl

@[simp] theorem Scalar.value_real (t : NpReal) (x : P.R t.countBytes) :
    (Scalar.real t x : Scalar P).value = .real t.countBytes x := rfl

@[simp] theorem Scalar.value_bool (b : Bool) :
    (Scalar.bool b : Scalar P).value = .logical 4 b := rfl

theorem NpInt.bits_pos (t : NpInt) : 0 < 8 * t.countBytes := by
  cases t <;> decide

/-- An integer that fits is stored as it is. -/
theorem Scalar.value_ofInt {t : NpInt} (h : Fits (8 * t.countBytes) n) :
    (Scalar.ofInt t n : Scalar P).value = .int t.countBytes n := by
  unfold Scalar.ofInt
  rw [Scalar.value_int, toInt_ofInt_of_fits t.bits_pos h]

/-! ## numpy promotion -/

/-- The integer type of `k` bytes. -/
def NpInt.ofBytes? : ℤ → Option NpInt
  | 1 => some .int8
  | 2 => some .int16
  | 4 => some .int32
  | 8 => some .int64
  | _ => none

/-- The floating type of `k` bytes. -/
def NpReal.ofBytes? : ℤ → Option NpReal
  | 4 => some .float32
  | 8 => some .float64
  | _ => none

/-- The common type of two integers: the wider. -/
def NpInt.join (s t : NpInt) : NpInt := if s.countBytes ≤ t.countBytes then t else s

/-- The common type of two floats: the wider. -/
def NpReal.join (s t : NpReal) : NpReal := if s.countBytes ≤ t.countBytes then t else s

/-- The common type of an integer and a float: `float32` only holds the integers of two bytes. -/
def NpInt.withReal : NpInt → NpReal → NpReal
  | .int8, t => t
  | .int16, t => t
  | .int32, _ => .float64
  | .int64, _ => .float64

theorem NpInt.countBytes_join (s t : NpInt) :
    (s.join t).countBytes = max s.countBytes t.countBytes := by
  cases s <;> cases t <;> rfl

theorem NpReal.countBytes_join (s t : NpReal) :
    (s.join t).countBytes = max s.countBytes t.countBytes := by
  cases s <;> cases t <;> rfl

/-- A type is found by its bytes. -/
theorem NpInt.ofBytes?_eq_some {t : NpInt} (h : NpInt.ofBytes? n = some t) :
    n = t.countBytes := by
  unfold NpInt.ofBytes? at h
  split at h <;> cases h <;> rfl

/-- A type is found by its bytes. -/
theorem NpReal.ofBytes?_eq_some {t : NpReal} (h : NpReal.ofBytes? n = some t) :
    n = t.countBytes := by
  unfold NpReal.ofBytes? at h
  split at h <;> cases h <;> rfl

/-- Two operands after promotion to their common type. -/
inductive Promoted (P : Processor) where
  | ints (t : NpInt) (a b : ℤ)
  | reals (t : NpReal) (x y : P.R t.countBytes)

/-- numpy's promotion of two numbers. A LOGICAL operand of a numeric operator is not
Fortran, and none is promoted here. -/
def promote : Scalar P → Scalar P → Option (Promoted P)
  | .int s v, .int t w => some (.ints (s.join t) v.toInt w.toInt)
  | .int s v, .real t y =>
    some (.reals (s.withReal t) (P.ofInt _ v.toInt) (P.convert _ _ y))
  | .real s x, .int t w =>
    some (.reals (t.withReal s) (P.convert _ _ x) (P.ofInt _ w.toInt))
  | .real s x, .real t y => some (.reals (s.join t) (P.convert _ _ x) (P.convert _ _ y))
  | _, _ => none

end ConstEval
