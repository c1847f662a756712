import Mathlib.Data.Nat.Basic
import Mathlib.Data.List.Basic
import Mathlib.Algebra.Order.Ring.Nat
import Mathlib.Order.Compare

/-!
# Lib/OrderCode — byte strings that compare like the things they encode

Byte strings are compared lexicographically, a proper prefix first (`compare` on `List UInt8`).
Two encodings `x`, `y` **agree** with a comparison result `o` (`Agrees o x y`) when `o` decides the
comparison of the two encodings *whatever follows them*.  That one notion carries both halves of a
key encoding:

* `Agrees.compare_eq` — the encodings compare as the things they encode;
* `Agrees.isPrefix_append_iff` — an encoding begins another string only where the two are equal,
  so no encoding is a proper prefix of another.

It is closed under concatenation (`Agrees.append`), which is how encoders are put together.
-/

namespace OrderCode

/-- A byte string; the elements are `u8`. -/
abbrev Bytes := List UInt8

/-- **`o` decides the comparison of `x` and `y`, whatever follows them.** -/
def Agrees (o : Ordering) (x y : Bytes) : Prop :=
  ∀ s t : Bytes, compare (x ++ s) (y ++ t) = o.then (compare s t)

variable {o p : Ordering} {x y x' y' : Bytes}

/-! ## What agreement gives -/

theorem Agrees.compare_eq (h : Agrees o x y) : compare x y = o := by
  have := h [] []
  simpa only [List.append_nil, List.compare_nil_nil, Ordering.then_eq] using this

/-- The encodings are equal exactly when the comparison says so. -/
theorem Agrees.eq_iff (h : Agrees o x y) : x = y ↔ o = .eq := by
  rw [← h.compare_eq, Std.LawfulEqOrd.compare_eq_iff_eq]

/-- **No proper prefixes**: `x` begins `y` followed by anything only if `x` *is* `y`. -/
theorem Agrees.isPrefix_append_iff (h : Agrees o x y) (t : Bytes) :
    x <+: y ++ t ↔ o = .eq := by
  constructor
  · rintro ⟨s, hs⟩
    have hcmp : o.then (compare s t) = .eq := by
      rw [← h s t, hs]
      exact Std.ReflCmp.compare_self
    exact (Ordering.then_eq_eq.mp hcmp).1
  · intro ho
    rw [h.eq_iff.mpr ho]
    exact List.prefix_append y t

theorem Agrees.isPrefix_iff (h : Agrees o x y) : x <+: y ↔ o = .eq := by
  simpa only [List.append_nil] using h.isPrefix_append_iff []

/-! ## Building agreements -/

theorem Agrees.nil : Agrees .eq [] [] := fun _ _ => rfl

/-- **Concatenation**: the first parts decide, and only where they are equal do the second parts
have to agree. -/
theorem Agrees.append (h : Agrees o x y) (h' : o = .eq → Agrees p x' y') :
    Agrees (o.then p) (x ++ x') (y ++ y') := by
  intro s t
  rw [List.append_assoc, List.append_assoc, h]
  cases o with
  | lt => rfl
  | gt => rfl
  | eq => exact h' rfl s t

theorem Agrees.cons {a b : UInt8} (h' : compare a b = .eq → Agrees p x' y') :
    Agrees ((compare a b).then p) (a :: x') (b :: y') := by
  intro s t
  rw [List.cons_append, List.cons_append, List.compare_cons_cons]
  cases hab : compare a b with
  | lt => rfl
  | gt => rfl
  | eq => exact h' hab s t

/-- A shared leading byte changes nothing. -/
theorem Agrees.cons_self (a : UInt8) (h : Agrees p x' y') : Agrees p (a :: x') (a :: y') := by
  have hself : compare a a = .eq := Std.ReflCmp.compare_self
  have hcons : Agrees ((compare a a).then p) (a :: x') (a :: y') := Agrees.cons fun _ => h
  rwa [hself] at hcons

/-- Different leading bytes decide alone. -/
theorem Agrees.of_ne {a b : UInt8} (hab : compare a b ≠ .eq) (x y : Bytes) :
    Agrees (compare a b) (a :: x) (b :: y) := by
  have hcons : Agrees ((compare a b).then .eq) (a :: x) (b :: y) :=
    Agrees.cons fun h => absurd h hab
  rwa [Ordering.then_eq] at hcons

/-- Strings of one length agree with their own comparison. -/
theorem Agrees.of_length_eq : ∀ {x y : Bytes}, x.length = y.length → Agrees (compare x y) x y
  | [], [], _ => Agrees.nil
  | a :: x, b :: y, h => by
    rw [List.compare_cons_cons]
    exact Agrees.cons fun _ => Agrees.of_length_eq (Nat.succ.inj h)

/-! ## Fixed-width big-endian naturals -/

/-- The `w` big-endian bytes of `n`; higher bits are dropped. -/
def toBE : ℕ → ℕ → Bytes
  | 0, _ => []
  | w + 1, n => UInt8.ofNat (n / 256 ^ w) :: toBE w n

@[simp] theorem length_toBE (w n : ℕ) : (toBE w n).length = w := by
  induction w with
  | zero => rfl
  | succ w ih => rw [toBE, List.length_cons, ih]

theorem toBE_mod (w n : ℕ) : toBE w (n % 256 ^ w) = toBE w n := by
  suffices h : ∀ v, v ≤ w → toBE v (n % 256 ^ w) = toBE v n from h w le_rfl
  intro v hv
  induction v with
  | zero => rfl
  | succ v ih =>
    rw [toBE, toBE, ih (by omega)]
    congr 1
    apply UInt8.toNat_inj.mp
    obtain ⟨k, rfl⟩ : ∃ k, w = v + 1 + k := ⟨w - (v + 1), by omega⟩
    rw [UInt8.toNat_ofNat', UInt8.toNat_ofNat', show 256 ^ (v + 1 + k) = 256 ^ v * (256 * 256 ^ k)
      by rw [pow_add, pow_succ, mul_assoc], Nat.mod_mul_right_div_self]
    exact Nat.mod_mul_right_mod _ _ _

/-- The number a big-endian byte string denotes. -/
def ofBE : Bytes → ℕ
  | [] => 0
  | b :: bytes => b.toNat * 256 ^ bytes.length + ofBE bytes

theorem ofBE_toBE (w n : ℕ) : ofBE (toBE w n) = n % 256 ^ w := by
  induction w with
  | zero => rw [toBE, ofBE, pow_zero, Nat.mod_one]
  | succ w ih =>
    rw [toBE, ofBE, length_toBE, ih, UInt8.toNat_ofNat', pow_succ]
    exact (Nat.add_comm _ _).trans
      ((congrArg (_ + ·) (Nat.mul_comm _ _)).trans (Nat.mod_mul (a := 256 ^ w) (b := 256)).symm)

private theorem compare_uint8 (a b : UInt8) : compare a b = compare a.toNat b.toNat := by
  change compareOfLessAndEq a b = compareOfLessAndEq a.toNat b.toNat
  simp only [compareOfLessAndEq, UInt8.lt_iff_toNat_lt, UInt8.toNat_inj]

/-- **Big-endian bytes compare as the numbers.** -/
theorem compare_toBE (w : ℕ) {n m : ℕ} (hn : n < 256 ^ w) (hm : m < 256 ^ w) :
    compare (toBE w n) (toBE w m) = compare n m := by
  induction w generalizing n m with
  | zero =>
    have : n = m := by omega
    subst this
    exact (Nat.compare_eq_eq.mpr rfl).symm
  | succ w ih =>
    have hpos : 0 < 256 ^ w := Nat.pow_pos (by decide)
    have hbyte : ∀ k, k < 256 ^ (w + 1) → (UInt8.ofNat (k / 256 ^ w)).toNat = k / 256 ^ w := by
      intro k hk
      rw [UInt8.toNat_ofNat']
      exact Nat.mod_eq_of_lt (Nat.div_lt_of_lt_mul (by rwa [pow_succ] at hk))
    rw [toBE, toBE, List.compare_cons_cons, compare_uint8, hbyte n hn, hbyte m hm,
      ← toBE_mod w n, ← toBE_mod w m, ih (Nat.mod_lt _ hpos) (Nat.mod_lt _ hpos)]
    -- the leading digit decides, and below it the remainders do
    have hn' := Nat.div_add_mod n (256 ^ w)
    have hm' := Nat.div_add_mod m (256 ^ w)
    have hnr := Nat.mod_lt n hpos
    have hmr := Nat.mod_lt m hpos
    rcases Nat.lt_trichotomy (n / 256 ^ w) (m / 256 ^ w) with h | h | h
    · have : n < m := by
        by_contra hle
        exact absurd (Nat.div_le_div_right (c := 256 ^ w) (not_lt.mp hle)) (not_le.mpr h)
      rw [Nat.compare_eq_lt.mpr h, Nat.compare_eq_lt.mpr this]
      rfl
    · rw [Nat.compare_eq_eq.mpr h]
      rw [h] at hn'
      rcases Nat.lt_trichotomy (n % 256 ^ w) (m % 256 ^ w) with h' | h' | h'
      · rw [Nat.compare_eq_lt.mpr h', Nat.compare_eq_lt.mpr (by omega)]
        rfl
      · rw [Nat.compare_eq_eq.mpr h', Nat.compare_eq_eq.mpr (by omega)]
        rfl
      · rw [Nat.compare_eq_gt.mpr h', Nat.compare_eq_gt.mpr (by omega)]
        rfl
    · have : m < n := by
        by_contra hle
        exact absurd (Nat.div_le_div_right (c := 256 ^ w) (not_lt.mp hle)) (not_le.mpr h)
      rw [Nat.compare_eq_gt.mpr h, Nat.compare_eq_gt.mpr this]
      rfl

/-- Fixed-width numbers agree with the comparison of the numbers. -/
theorem agrees_toBE (w : ℕ) {n m : ℕ} (hn : n < 256 ^ w) (hm : m < 256 ^ w) :
    Agrees (compare n m) (toBE w n) (toBE w m) := by
  rw [← compare_toBE w hn hm]
  exact Agrees.of_length_eq (by rw [length_toBE, length_toBE])

/-! ## Zero-terminated byte strings -/

/-- Escape every zero byte as `00 FF` and close with `00 00`. -/
def terminated : Bytes → Bytes
  | [] => [0, 0]
  | b :: bs => if b = 0 then 0 :: 0xff :: terminated bs else b :: terminated bs

/-- **Terminated byte strings agree with the comparison of the byte strings.** -/
theorem agrees_terminated : ∀ x y : Bytes, Agrees (compare x y) (terminated x) (terminated y)
  | [], [] => (Agrees.nil.cons_self 0).cons_self 0
  | [], b :: y => by
    rw [List.compare_nil_cons, terminated, terminated]
    by_cases hb : b = 0
    · rw [if_pos hb]
      exact (Agrees.of_ne (a := 0) (b := 0xff) (by decide) _ _).cons_self 0
    · rw [if_neg hb, ← zero_compare_of_ne hb]
      exact Agrees.of_ne (by rw [zero_compare_of_ne hb]; decide) _ _
  | a :: x, [] => by
    rw [List.compare_cons_nil, terminated, terminated]
    by_cases ha : a = 0
    · rw [if_pos ha]
      exact (Agrees.of_ne (a := 0xff) (b := 0) (by decide) _ _).cons_self 0
    · rw [if_neg ha, ← compare_zero_of_ne ha]
      exact Agrees.of_ne (by rw [compare_zero_of_ne ha]; decide) _ _
  | a :: x, b :: y => by
    rw [List.compare_cons_cons, terminated, terminated]
    by_cases ha : a = 0 <;> by_cases hb : b = 0
    · rw [if_pos ha, if_pos hb, ha, hb]
      exact ((agrees_terminated x y).cons_self 0xff).cons_self 0
    · rw [if_pos ha, if_neg hb, ha]
      exact Agrees.cons fun h => absurd (Std.LawfulEqCmp.eq_of_compare h).symm hb
    · rw [if_neg ha, if_pos hb, hb]
      exact Agrees.cons fun h => absurd (Std.LawfulEqCmp.eq_of_compare h) ha
    · rw [if_neg ha, if_neg hb]
      exact Agrees.cons fun _ => agrees_terminated x y
where
  zero_compare_of_ne {b : UInt8} (hb : b ≠ 0) : compare 0 b = .lt := by
    have h0 : b.toNat ≠ 0 := fun h => hb (UInt8.toNat_inj.mp h)
    rw [compare_uint8]
    exact Nat.compare_eq_lt.mpr (Nat.pos_of_ne_zero h0)
  compare_zero_of_ne {a : UInt8} (ha : a ≠ 0) : compare a 0 = .gt := by
    have h0 : a.toNat ≠ 0 := fun h => ha (UInt8.toNat_inj.mp h)
    rw [compare_uint8]
    exact Nat.compare_eq_gt.mpr (Nat.pos_of_ne_zero h0)

end OrderCode
