import Mica.Var.OrderedKey

/-!
# Var/LanguageCmp — comparison as the language sees it

The order of stored values keeps `1` and `1.0` apart; the language compares numbers by value.
`compareIntFloat` compares an integer with a binary32 number without rounding either.
-/

namespace Mica

namespace FiniteF32

/-- The sign bit. -/
def isNegative (f : FiniteF32) : Bool := decide (2 ^ 31 ≤ f.bits.toNat)

/-- The significand, with the hidden bit of a normal number. -/
def significand (f : FiniteF32) : ℕ :=
  if f32Exponent f.bits = 0 then f.bits.toNat % 2 ^ 23 else 2 ^ 23 + f.bits.toNat % 2 ^ 23

/-- The biased exponent of the significand's last bit, plus 150: a number is
`significand * 2 ^ (scale - 150)`. -/
def scale (f : FiniteF32) : ℕ := max (f32Exponent f.bits) 1

/-- The magnitude of `f32::trunc`. -/
def truncMagnitude (f : FiniteF32) : ℕ :=
  if 150 ≤ f.scale then f.significand * 2 ^ (f.scale - 150)
  else f.significand / 2 ^ (150 - f.scale)

/-- `f32::trunc() as i64`, for a number inside the integer range. -/
def trunc (f : FiniteF32) : ℤ := if f.isNegative then -f.truncMagnitude else f.truncMagnitude

/-- Whether `f32::fract` is not zero; it has the sign of the number. -/
def hasFract (f : FiniteF32) : Bool :=
  decide (f.scale < 150) && decide (f.significand % 2 ^ (150 - f.scale) ≠ 0)

end FiniteF32

/-- `language_cmp::compare_int_float`. -/
def compareIntFloat (integer : Integer) (float : FiniteF32) : Ordering :=
  if float.isNegative = true ∧ 2 ^ 55 < float.truncMagnitude then .gt
  else if float.isNegative = false ∧ 2 ^ 55 ≤ float.truncMagnitude then .lt
  else match compare integer.val float.trunc with
    | .eq => if float.hasFract then (if float.isNegative then .gt else .lt) else .eq
    | nonEqual => nonEqual

/-- `language_cmp::numeric_cmp`. -/
def numericCmp (left right : Value) : Ordering :=
  match left.raw, right.raw with
  | .int a, .int b => compare a.val b.val
  | .float a, .float b => a.totalCmp b
  | .int a, .float b => compareIntFloat a b
  | .float a, .int b => (compareIntFloat b a).swap
  | _, _ => left.cmp right

/-- `language_cmp::numeric_eq`. -/
def numericEq (left right : Value) : Bool :=
  match left.raw, right.raw with
  | .int a, .int b => a == b
  | .float a, .float b => a == b
  | .int a, .float b => compareIntFloat a b == .eq
  | .float a, .int b => compareIntFloat b a == .eq
  | _, _ => left == right

/-- **The two comparisons agree on equality.** -/
theorem numericEq_iff (left right : Value) :
    numericEq left right = true ↔ numericCmp left right = .eq := by
  unfold numericEq numericCmp
  split
  · next a b _ _ =>
    rw [beq_iff_eq, compare_eq_iff_eq]
    exact ⟨fun h => h ▸ rfl, fun h => by cases a; cases b; cases h; rfl⟩
  · rw [beq_iff_eq, FiniteF32.totalCmp_eq_iff]
  · rw [beq_iff_eq]
  · rw [beq_iff_eq, Ordering.swap_eq_eq]
  · rw [beq_iff_eq, Value.cmp_eq_iff]

end Mica
