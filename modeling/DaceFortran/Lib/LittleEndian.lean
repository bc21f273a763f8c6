/-
# Little-endian words

Numbers as a fixed number of bytes, the lowest first, and back.
-/
import Mathlib.Tactic.Ring

namespace LittleEndian

/-- The lowest `k` bytes of a number. -/
def bytes : ℕ → ℕ → List UInt8
  | 0, _ => []
  | k + 1, v => UInt8.ofNat (v % 256) :: bytes k (v / 256)

/-- The number some bytes stand for. -/
def value : List UInt8 → ℕ
  | [] => 0
  | b :: r => b.toNat + 256 * value r

@[simp] theorem length_bytes (k v : ℕ) : (bytes k v).length = k := by
  induction k generalizing v with
  | zero => rfl
  | succ k ih => rw [bytes, List.length_cons, ih]

/-- Bytes read back give the number, as far as they reach. -/
theorem value_bytes (k v : ℕ) : value (bytes k v) = v % 256 ^ k := by
  induction k generalizing v with
  | zero => rw [pow_zero, Nat.mod_one]; rfl
  | succ k ih =>
    have hbyte : (UInt8.ofNat (v % 256)).toNat = v % 256 := by
      rw [UInt8.toNat_ofNat']
      omega
    rw [bytes, value, ih, hbyte, pow_succ, Nat.mul_comm (256 ^ k) 256, Nat.mod_mul]

end LittleEndian
