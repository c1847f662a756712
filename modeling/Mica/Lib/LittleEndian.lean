import Mica.Lib.OrderCode

/-!
# Lib/LittleEndian — fixed-width little-endian words
-/

namespace LittleEndian

open OrderCode (Bytes)

/-- The `w` little-endian bytes of `n`; higher bits are dropped. -/
def toLE : ℕ → ℕ → Bytes
  | 0, _ => []
  | w + 1, n => UInt8.ofNat n :: toLE w (n / 256)

/-- The number with the given little-endian bytes. -/
def ofLE : Bytes → ℕ
  | [] => 0
  | b :: bs => b.toNat + 256 * ofLE bs

@[simp] theorem length_toLE (w n : ℕ) : (toLE w n).length = w := by
  induction w generalizing n with
  | zero => rfl
  | succ w ih => rw [toLE, List.length_cons, ih]

theorem ofLE_toLE {w n : ℕ} (h : n < 256 ^ w) : ofLE (toLE w n) = n := by
  induction w generalizing n with
  | zero =>
    have : n = 0 := by omega
    rw [this]
    rfl
  | succ w ih =>
    have hdiv : n / 256 < 256 ^ w := Nat.div_lt_of_lt_mul (by rwa [pow_succ'] at h)
    rw [toLE, ofLE, ih hdiv, UInt8.toNat_ofNat']
    omega

end LittleEndian
