import Mathlib.Algebra.Order.Field.Rat
import Mathlib.Data.Rat.Cast.Order
import Mathlib.Order.Compare
import Mathlib.Tactic.FieldSimp
import Mathlib.Tactic.Ring
import Mica.Var.Construct
import Mica.Var.LanguageCmp

/-!
# Var/NumericOrder — numbers compare as the rationals they are

Integers and finite binary32 numbers denote rationals.  A binary32 number is a whole number of
`2 ^ -149`, so every comparison is one of integers: `units` counts them, the bits of a number are in
the order of its units, and truncation is division of the units by `2 ^ 149`.

* `FiniteF32.totalCmp_eq` — the order of the bits is the order of the units.
* `compareIntFloat_eq` — no rounding between an integer and a float.
-/

namespace Mica

/-! ## What numbers denote -/

/-- The rational a binary32 number denotes. -/
def FiniteF32.toRat (f : FiniteF32) : ℚ :=
  (if f.isNegative then -1 else 1) * f.significand * 2 ^ ((f.scale : ℤ) - 150)

/-- The numbers of the language. -/
inductive Number where
  | int (value : Integer)
  | float (value : FiniteF32)

namespace Number

def toValue : Number → Value
  | .int a => Value.int a
  | .float f => Value.float f

/-- The rational a number denotes. -/
def toRat : Number → ℚ
  | .int a => a.val
  | .float f => f.toRat

/-- A number is at most another as the language compares them. -/
def AtMost (x y : Number) : Prop := numericCmp x.toValue y.toValue ≠ .gt

end Number

/-! ## Units -/

/-- The magnitude that the low 31 bits name, in units of `2 ^ -149`. -/
def magnitudeUnits (n : ℕ) : ℕ :=
  (if n / 2 ^ 23 = 0 then n % 2 ^ 23 else 2 ^ 23 + n % 2 ^ 23) * 2 ^ (max (n / 2 ^ 23) 1 - 1)

theorem magnitudeUnits_lt_succ (n : ℕ) : magnitudeUnits n < magnitudeUnits (n + 1) := by
  unfold magnitudeUnits
  by_cases hm : n % 2 ^ 23 + 1 < 2 ^ 23
  · -- the next number has the same exponent
    have hdiv : (n + 1) / 2 ^ 23 = n / 2 ^ 23 := by omega
    have hmod : (n + 1) % 2 ^ 23 = n % 2 ^ 23 + 1 := by omega
    rw [hdiv, hmod]
    refine Nat.mul_lt_mul_of_pos_right ?_ (Nat.two_pow_pos _)
    split <;> omega
  -- the significand is full: the next number is the least one of the next exponent
  have hdiv : (n + 1) / 2 ^ 23 = n / 2 ^ 23 + 1 := by omega
  have hmod : (n + 1) % 2 ^ 23 = 0 := by omega
  rw [hdiv, hmod, if_neg (Nat.succ_ne_zero _), max_eq_left (Nat.le_add_left 1 _),
    Nat.add_sub_cancel]
  cases he : n / 2 ^ 23 with
  | zero =>
    rw [if_pos rfl, max_eq_right (Nat.zero_le 1), Nat.sub_self, Nat.pow_zero]
    omega
  | succ e =>
    rw [if_neg (Nat.succ_ne_zero e), max_eq_left (Nat.le_add_left 1 e), Nat.add_sub_cancel]
    have hlt : 2 ^ 23 + n % 2 ^ 23 < 2 ^ 24 := by omega
    calc (2 ^ 23 + n % 2 ^ 23) * 2 ^ e < 2 ^ 24 * 2 ^ e :=
          Nat.mul_lt_mul_of_pos_right hlt (Nat.two_pow_pos e)
      _ = (2 ^ 23 + 0) * 2 ^ (e + 1) := by ring

theorem strictMono_magnitudeUnits : StrictMono magnitudeUnits :=
  strictMono_nat_of_lt_succ magnitudeUnits_lt_succ

namespace FiniteF32

/-- The bits without the sign. -/
def magnitudeBits (f : FiniteF32) : ℕ := f.bits.toNat % 2 ^ 31

/-- A number in units of `2 ^ -149`. -/
def units (f : FiniteF32) : ℤ :=
  if f.isNegative then -magnitudeUnits f.magnitudeBits else magnitudeUnits f.magnitudeBits

theorem f32Exponent_eq (f : FiniteF32) : f32Exponent f.bits = f.magnitudeBits / 2 ^ 23 := by
  have := f.bits.toNat_lt
  unfold f32Exponent magnitudeBits
  omega

theorem magnitudeUnits_eq (f : FiniteF32) :
    magnitudeUnits f.magnitudeBits = f.significand * 2 ^ (f.scale - 1) := by
  have hmod : f.magnitudeBits % 2 ^ 23 = f.bits.toNat % 2 ^ 23 := by
    unfold magnitudeBits
    omega
  rw [magnitudeUnits, significand, scale, f32Exponent_eq, hmod]

theorem one_le_scale (f : FiniteF32) : 1 ≤ f.scale := le_max_right _ _

theorem toRat_eq (f : FiniteF32) : f.toRat = (f.units : ℚ) / 2 ^ 149 := by
  obtain ⟨k, hk⟩ := Nat.exists_eq_add_of_le f.one_le_scale
  have hscale : (2 : ℚ) ^ ((f.scale : ℤ) - 150) = 2 ^ (f.scale - 1) / 2 ^ 149 := by
    rw [hk, Nat.add_sub_cancel_left, eq_div_iff (by positivity), ← zpow_natCast, ← zpow_natCast,
      ← zpow_add₀ (by norm_num)]
    congr 1
    push_cast
    ring
  have hunits : (f.units : ℚ) =
      (if f.isNegative then -1 else 1) * f.significand * 2 ^ (f.scale - 1) := by
    rw [units, magnitudeUnits_eq]
    split <;> push_cast <;> ring
  rw [toRat, hscale, hunits]
  ring

/-- A negative number has units below zero: the one zero is not negative. -/
theorem units_neg {f : FiniteF32} (h : f.isNegative = true) : f.units < 0 := by
  have hsign : 2 ^ 31 ≤ f.bits.toNat := of_decide_eq_true h
  have hne : f.bits.toNat ≠ 2 ^ 31 := fun heq => f.ne_negZero (UInt32.toNat_inj.mp heq)
  have hpos : 0 < f.magnitudeBits := by
    have := f.bits.toNat_lt
    unfold magnitudeBits
    omega
  have hlt := strictMono_magnitudeUnits hpos
  rw [units, if_pos h]
  omega

theorem units_nonneg {f : FiniteF32} (h : f.isNegative = false) : 0 ≤ f.units := by
  rw [units, if_neg (by simp [h])]
  exact Int.natCast_nonneg _

theorem units_lt_of_key_lt {a b : FiniteF32} (h : totalCmpKey a.bits < totalCmpKey b.bits) :
    a.units < b.units := by
  have ha := a.bits.toNat_lt
  have hb := b.bits.toNat_lt
  cases hna : a.isNegative with
  | true =>
    have hsa : 2 ^ 31 ≤ a.bits.toNat := of_decide_eq_true hna
    cases hnb : b.isNegative with
    | true =>
      have hsb : 2 ^ 31 ≤ b.bits.toNat := of_decide_eq_true hnb
      have hlt : b.magnitudeBits < a.magnitudeBits := by
        rw [totalCmpKey, totalCmpKey, if_neg hsa.not_gt, if_neg hsb.not_gt] at h
        unfold magnitudeBits
        omega
      have hmono := strictMono_magnitudeUnits hlt
      rw [units, units, if_pos hna, if_pos hnb]
      omega
    | false => exact (units_neg hna).trans_le (units_nonneg hnb)
  | false =>
    have hsa : a.bits.toNat < 2 ^ 31 := not_le.mp (of_decide_eq_false hna)
    cases hnb : b.isNegative with
    | true =>
      have hsb : 2 ^ 31 ≤ b.bits.toNat := of_decide_eq_true hnb
      rw [totalCmpKey, totalCmpKey, if_pos hsa, if_neg hsb.not_gt] at h
      omega
    | false =>
      have hsb : b.bits.toNat < 2 ^ 31 := not_le.mp (of_decide_eq_false hnb)
      have hlt : a.magnitudeBits < b.magnitudeBits := by
        rw [totalCmpKey, totalCmpKey, if_pos hsa, if_pos hsb] at h
        unfold magnitudeBits
        omega
      have hmono := strictMono_magnitudeUnits hlt
      rw [units, units, if_neg (by simp [hna]), if_neg (by simp [hnb])]
      omega

/-- **The order of the bits is the order of the units.** -/
theorem totalCmp_eq (a b : FiniteF32) : a.totalCmp b = compare a.units b.units := by
  rw [totalCmp]
  rcases lt_trichotomy (totalCmpKey a.bits) (totalCmpKey b.bits) with h | h | h
  · rw [compare_lt_iff_lt.mpr h, compare_lt_iff_lt.mpr (units_lt_of_key_lt h)]
  · obtain rfl : a = b := totalCmp_eq_iff.mp (compare_eq_iff_eq.mpr h)
    rw [compare_eq_iff_eq.mpr rfl, compare_eq_iff_eq.mpr rfl]
  · rw [compare_gt_iff_gt.mpr h, compare_gt_iff_gt.mpr (units_lt_of_key_lt h)]

/-! ## Truncation -/

theorem truncMagnitude_eq (f : FiniteF32) :
    f.truncMagnitude = magnitudeUnits f.magnitudeBits / 2 ^ 149 := by
  have hscale := f.one_le_scale
  rw [truncMagnitude, magnitudeUnits_eq]
  split
  · next h =>
    have hpow : 2 ^ (f.scale - 1) = 2 ^ (f.scale - 150) * 2 ^ 149 := by
      rw [← Nat.pow_add]
      congr 1
      omega
    rw [hpow, ← Nat.mul_assoc, Nat.mul_div_cancel _ (Nat.two_pow_pos 149)]
  rename_i h
  have hpow : 2 ^ 149 = 2 ^ (150 - f.scale) * 2 ^ (f.scale - 1) := by
    rw [← Nat.pow_add]
    congr 1
    omega
  rw [hpow, Nat.mul_div_mul_right _ _ (Nat.two_pow_pos _)]

theorem hasFract_iff (f : FiniteF32) :
    f.hasFract = true ↔ magnitudeUnits f.magnitudeBits % 2 ^ 149 ≠ 0 := by
  have hscale := f.one_le_scale
  rw [hasFract, magnitudeUnits_eq, Bool.and_eq_true, decide_eq_true_iff, decide_eq_true_iff]
  by_cases h : f.scale < 150
  · have hpow : 2 ^ 149 = 2 ^ (150 - f.scale) * 2 ^ (f.scale - 1) := by
      rw [← Nat.pow_add]
      congr 1
      omega
    rw [hpow, Nat.mul_mod_mul_right]
    simp [h]
  have hpow : 2 ^ (f.scale - 1) = 2 ^ (f.scale - 150) * 2 ^ 149 := by
    rw [← Nat.pow_add]
    congr 1
    omega
  rw [hpow, ← Nat.mul_assoc, Nat.mul_mod_left]
  simp [h]

end FiniteF32

/-- An integer and a magnitude: the fraction decides between equal whole parts. -/
theorem compare_units_nonneg (i : ℤ) (n : ℕ) :
    compare (i * 2 ^ 149) (n : ℤ) =
      match compare i (n / 2 ^ 149 : ℕ) with
      | .eq => if n % 2 ^ 149 ≠ 0 then .lt else .eq
      | nonEqual => nonEqual := by
  rcases lt_trichotomy i (n / 2 ^ 149 : ℕ) with h | h | h
  · rw [compare_lt_iff_lt.mpr h, compare_lt_iff_lt]
    omega
  · rw [compare_eq_iff_eq.mpr h]
    dsimp only
    split
    · rw [compare_lt_iff_lt]
      omega
    · rw [compare_eq_iff_eq]
      omega
  · rw [compare_gt_iff_gt.mpr h, compare_gt_iff_gt]
    omega

theorem compare_units_neg (i : ℤ) (n : ℕ) :
    compare (i * 2 ^ 149) (-n : ℤ) =
      match compare i (-(n / 2 ^ 149 : ℕ)) with
      | .eq => if n % 2 ^ 149 ≠ 0 then .gt else .eq
      | nonEqual => nonEqual := by
  rcases lt_trichotomy i (-(n / 2 ^ 149 : ℕ)) with h | h | h
  · rw [compare_lt_iff_lt.mpr h, compare_lt_iff_lt]
    omega
  · rw [compare_eq_iff_eq.mpr h]
    dsimp only
    split
    · rw [compare_gt_iff_gt]
      omega
    · rw [compare_eq_iff_eq]
      omega
  · rw [compare_gt_iff_gt.mpr h, compare_gt_iff_gt]
    omega

/-- **An integer and a float compare without rounding.** -/
theorem compareIntFloat_eq (i : Integer) (f : FiniteF32) :
    compareIntFloat i f = compare (i.val * 2 ^ 149) f.units := by
  have hmin : -2 ^ 55 ≤ i.val := i.min_le
  have hmax : i.val ≤ 2 ^ 55 - 1 := i.le_max
  have hfract := f.hasFract_iff
  rw [compareIntFloat, FiniteF32.trunc, f.truncMagnitude_eq, FiniteF32.units]
  generalize magnitudeUnits f.magnitudeBits = n at hfract
  cases hneg : f.isNegative with
  | true =>
    simp only [true_and, false_and, if_true, if_false, Bool.true_eq_false]
    split
    · next hbig =>
      rw [eq_comm, compare_gt_iff_gt]
      omega
    rw [compare_units_neg]
    cases compare i.val (-(n / 2 ^ 149 : ℕ)) with
    | eq => exact if_congr hfract rfl rfl
    | lt => rfl
    | gt => rfl
  | false =>
    simp only [true_and, false_and, if_false, Bool.false_eq_true]
    split
    · next hbig =>
      rw [eq_comm, compare_lt_iff_lt]
      omega
    rw [compare_units_nonneg]
    cases compare i.val (n / 2 ^ 149 : ℕ) with
    | eq => exact if_congr hfract rfl rfl
    | lt => rfl
    | gt => rfl

/-! ## Numbers -/

namespace Number

/-- A number in units of `2 ^ -149`. -/
def units : Number → ℤ
  | .int a => a.val * 2 ^ 149
  | .float f => f.units

theorem toRat_eq : ∀ x : Number, x.toRat = (x.units : ℚ) / 2 ^ 149
  | .int a => by
    rw [toRat, units, eq_div_iff (by positivity)]
    push_cast
    rfl
  | .float f => f.toRat_eq

theorem compare_toRat (x y : Number) : compare x.toRat y.toRat = compare x.units y.units := by
  have hmono : StrictMono fun n : ℤ => (n : ℚ) / 2 ^ 149 := fun a b h =>
    div_lt_div_of_pos_right (Int.cast_lt.mpr h) (by positivity)
  rw [toRat_eq, toRat_eq]
  rcases lt_trichotomy x.units y.units with h | h | h
  · rw [compare_lt_iff_lt.mpr h, compare_lt_iff_lt.mpr (hmono h)]
  · rw [h, compare_eq_iff_eq.mpr rfl, compare_eq_iff_eq.mpr rfl]
  · rw [compare_gt_iff_gt.mpr h, compare_gt_iff_gt.mpr (hmono h)]

theorem numericCmp_eq : ∀ x y : Number, numericCmp x.toValue y.toValue = compare x.toRat y.toRat
  | .int a, .int b => by
    have hint : compare (a.val * 2 ^ 149) (b.val * 2 ^ 149) = compare a.val b.val := by
      rcases lt_trichotomy a.val b.val with h | h | h
      · rw [compare_lt_iff_lt.mpr h, compare_lt_iff_lt]
        omega
      · rw [h, compare_eq_iff_eq.mpr rfl, compare_eq_iff_eq.mpr rfl]
      · rw [compare_gt_iff_gt.mpr h, compare_gt_iff_gt]
        omega
    rw [compare_toRat, units, units, hint]
    rfl
  | .float f, .float g => (f.totalCmp_eq g).trans (compare_toRat (.float f) (.float g)).symm
  | .int a, .float g => (compareIntFloat_eq a g).trans (compare_toRat (.int a) (.float g)).symm
  | .float f, .int b => by
    have hswap : compare f.units (b.val * 2 ^ 149) = (compare (b.val * 2 ^ 149) f.units).swap :=
      Std.OrientedCmp.eq_swap
    rw [compare_toRat, units, units, hswap, ← compareIntFloat_eq]
    rfl

theorem atMost_iff {x y : Number} : x.AtMost y ↔ x.toRat ≤ y.toRat := by
  rw [AtMost, numericCmp_eq, Ne, compare_gt_iff_gt, not_lt]

end Number

/-- **Numbers compare as the rationals they denote**, integers and floats alike. -/
theorem numericCmp_exact :
    (∀ x y : Number, numericCmp x.toValue y.toValue = compare x.toRat y.toRat) ∧
      (∀ x y z : Number, x.AtMost y → y.AtMost z → x.AtMost z) ∧
      (∀ x y : Number, x.AtMost y ∨ y.AtMost x) ∧
      ∀ x y : Number, numericCmp x.toValue y.toValue = .eq ↔
        numericEq x.toValue y.toValue = true := by
  refine ⟨Number.numericCmp_eq, fun x y z hxy hyz => ?_, fun x y => ?_, fun x y => ?_⟩
  · rw [Number.atMost_iff] at *
    exact hxy.trans hyz
  · rw [Number.atMost_iff, Number.atMost_iff]
    exact le_total _ _
  · exact (numericEq_iff _ _).symm

end Mica
