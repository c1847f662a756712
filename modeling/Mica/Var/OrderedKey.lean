import Mica.Var.Value
import Mathlib.Data.Nat.Bitwise
import Mathlib.Tactic.NormNum

/-!
# Var/OrderedKey — the ordered key encoding of values

`encodeOrdered` is `Value::encode_ordered_into`: the kind byte, then a payload whose bytes compare
like the payloads.  Strings and byte strings are zero-terminated, sequences put `1` before each
element and `0` at the end, absent options are `0`.

* `agrees_encodeOrdered` — the encodings of two canonical values agree with their comparison
  whatever follows them; order preservation and prefix freedom are read off it;
* `cmp_eq_iff` — two values compare equal exactly when they are the same;
* `Value` is a linear order (`compare` is `cmp`), pulled back along the encoding.
-/

open OrderCode List Bool

namespace Mica

/-! ## Scalars -/

/-- `self.as_int().unwrap() ^ i64::MIN`, as the unsigned number whose bytes are pushed. -/
def normalizedInt (i : ℤ) : ℕ := (BitVec.ofInt 64 i ^^^ BitVec.intMin 64).toNat

/-- `ordered_f32_bits`. -/
def orderedF32Bits (bits : UInt32) : UInt32 :=
  if bits &&& 0x80000000 ≠ 0 then ~~~bits else bits ^^^ 0x80000000

private theorem xor_two_pow_of_lt {x k : ℕ} (h : x < 2 ^ k) : x ^^^ 2 ^ k = x + 2 ^ k := by
  have hor : 2 ^ k + x = 2 ^ k ||| x := by
    simpa only [Nat.mul_one] using Nat.two_pow_add_eq_or_of_lt h 1
  rw [Nat.add_comm, hor]
  refine Nat.eq_of_testBit_eq fun i => ?_
  rw [Nat.testBit_xor, Nat.testBit_or, Nat.testBit_two_pow]
  by_cases hi : k = i
  · subst hi
    simp only [Nat.testBit_lt_two_pow h, decide_true, false_xor, Bool.true_or]
  · simp [hi]

private theorem add_xor_two_pow_of_lt {x k : ℕ} (h : x < 2 ^ k) : (x + 2 ^ k) ^^^ 2 ^ k = x := by
  rw [← xor_two_pow_of_lt h, Nat.xor_assoc, Nat.xor_self, Nat.xor_zero]

/-- Flipping the sign bit shifts the signed range to the unsigned one. -/
theorem normalizedInt_eq {i : ℤ} (hlo : -2 ^ 63 ≤ i) (hhi : i < 2 ^ 63) :
    (normalizedInt i : ℤ) = i + 2 ^ 63 := by
  rw [normalizedInt, BitVec.toNat_xor, BitVec.toNat_intMin, BitVec.toNat_ofInt]
  norm_num only
  rcases lt_or_ge i 0 with hneg | hpos
  · have hmod : i % 18446744073709551616 = i + 2 ^ 64 := by omega
    obtain ⟨n, hn⟩ : ∃ n : ℕ, i + 2 ^ 63 = n := ⟨(i + 2 ^ 63).toNat, by omega⟩
    have hlt : n < 2 ^ 63 := by omega
    have hnat : (i + 2 ^ 64).toNat = n + 2 ^ 63 := by omega
    have := add_xor_two_pow_of_lt hlt
    rw [hmod, hnat]
    norm_num only at this ⊢
    omega
  obtain ⟨n, rfl⟩ : ∃ n : ℕ, i = n := ⟨i.toNat, by omega⟩
  have hlt : n < 2 ^ 63 := by omega
  have hnat : ((n : ℤ) % 18446744073709551616).toNat = n := by omega
  have := xor_two_pow_of_lt hlt
  rw [hnat]
  norm_num only at this ⊢
  omega

/-- The pushed bits are the number `total_cmp` compares, shifted to the unsigned range. -/
theorem orderedF32Bits_eq (bits : UInt32) :
    ((orderedF32Bits bits).toNat : ℤ) = totalCmpKey bits + 2 ^ 31 := by
  have hlt : bits.toNat < 2 ^ 32 := bits.toNat_lt
  have hand : bits &&& 0x80000000 ≠ 0 ↔ 2 ^ 31 ≤ bits.toNat := by
    rw [← UInt32.toNat_inj.ne, UInt32.toNat_and]
    change bits.toNat &&& 2 ^ 31 ≠ 0 ↔ _
    rw [Nat.and_two_pow, Nat.testBit_eq_decide_div_mod_eq]
    rcases lt_or_ge bits.toNat (2 ^ 31) with h | h
    · rw [Nat.div_eq_of_lt h]
      simpa using h
    · have hone : bits.toNat / 2 ^ 31 = 1 := by omega
      rw [hone]
      simpa using h
  unfold orderedF32Bits totalCmpKey
  rcases lt_or_ge bits.toNat (2 ^ 31) with h | h
  · rw [if_neg (by rw [hand]; omega), if_pos h, UInt32.toNat_xor]
    have := xor_two_pow_of_lt h
    change ((bits.toNat ^^^ 2 ^ 31 : ℕ) : ℤ) = _
    omega
  · rw [if_pos (hand.mpr h), if_neg (by omega), UInt32.toNat_not]
    change ((2 ^ 32 - 1 - bits.toNat : ℕ) : ℤ) = _
    omega

/-! ## The encoder -/

/-- `1` and the column for each column, then `0`. -/
def encodeOrderedHeading : List Symbol → Bytes
  | [] => [0]
  | column :: heading => 1 :: (toBE 8 column.id.toNat ++ encodeOrderedHeading heading)

def encodeOrderedMessage : Option String → Bytes
  | some message => 1 :: terminated (utf8 message)
  | none => [0]

mutual

/-- `Value::encode_ordered_into`. -/
def RawValue.encodeOrdered (v : RawValue) : Bytes :=
  v.kind.tag :: match v with
  | .bool b => [b.toUInt8]
  | .int i => toBE 8 (normalizedInt i.val)
  | .float f => toBE 4 (orderedF32Bits f.bits).toNat
  | .identity i => toBE 8 i.raw.toNat
  | .symbol s => toBE 8 s.id.toNat
  | .errorCode s => toBE 8 s.id.toNat
  | .capability c => toBE 8 c.raw.toNat
  | .function f => toBE 8 f.raw.toNat
  | .string s => terminated (utf8 s)
  | .bytes b => terminated b
  | .list vs => encodeOrderedList vs
  | .map es => encodeOrderedEntries es
  | .relation heading rows => encodeOrderedHeading heading ++ encodeOrderedRows rows
  | .range start stop => start.encodeOrdered ++ encodeOrderedOption stop
  | .error code message value =>
    toBE 8 code.id.toNat ++ (encodeOrderedMessage message ++ encodeOrderedOption value)
  | .frob delegate value => toBE 8 delegate.raw.toNat ++ value.encodeOrdered
termination_by structural v

/-- `1` and the element for each element, then `0`. -/
def encodeOrderedList : List RawValue → Bytes
  | [] => [0]
  | v :: vs => 1 :: (v.encodeOrdered ++ encodeOrderedList vs)
termination_by structural vs => vs

/-- `1`, the key and the value for each entry, then `0`. -/
def encodeOrderedEntries : List (RawValue × RawValue) → Bytes
  | [] => [0]
  | (k, v) :: es => 1 :: (k.encodeOrdered ++ v.encodeOrdered ++ encodeOrderedEntries es)
termination_by structural es => es

/-- `1` and the cells for each row, then `0`; the cells are not separated. -/
def encodeOrderedRows : List (List RawValue) → Bytes
  | [] => [0]
  | row :: rows => 1 :: (encodeOrderedCells row ++ encodeOrderedRows rows)
termination_by structural rows => rows

def encodeOrderedCells : List RawValue → Bytes
  | [] => []
  | v :: vs => v.encodeOrdered ++ encodeOrderedCells vs
termination_by structural vs => vs

def encodeOrderedOption : Option RawValue → Bytes
  | some v => 1 :: v.encodeOrdered
  | none => [0]
termination_by structural x => x

end

/-! ## Equal values -/

theorem Symbol.cmp_eq_iff {a b : Symbol} : a.cmp b = .eq ↔ a = b := by
  rw [Symbol.cmp, Nat.compare_eq_eq, UInt32.toNat_inj, Symbol.mk.injEq]

theorem utf8_injective : Function.Injective utf8 := by
  intro s t h
  have hdata : s.toByteArray.data = t.toByteArray.data := Array.toList_inj.mp h
  exact String.toByteArray_inj.mp (ByteArray.ext hdata)

theorem cmpStr_eq_iff {s t : String} : cmpStr s t = .eq ↔ s = t := by
  rw [cmpStr, Std.LawfulEqOrd.compare_eq_iff_eq, utf8_injective.eq_iff]

theorem cmpOption_eq_iff {α : Type} {c : α → α → Ordering} {x y : Option α}
    (h : ∀ a ∈ x, ∀ b, c a b = .eq ↔ a = b) : cmpOption c x y = .eq ↔ x = y := by
  cases x <;> cases y <;> simp [cmpOption, h]

theorem cmpSymbols_eq_iff : ∀ {h k : List Symbol}, cmpSymbols h k = .eq ↔ h = k
  | [], [] => by simp [cmpSymbols]
  | [], _ :: _ => by simp [cmpSymbols]
  | _ :: _, [] => by simp [cmpSymbols]
  | a :: h, b :: k => by
    rw [cmpSymbols, Ordering.then_eq_eq, Symbol.cmp_eq_iff, cmpSymbols_eq_iff, List.cons.injEq]

theorem totalCmpKey_injective : Function.Injective totalCmpKey := by
  intro a b h
  unfold totalCmpKey at h
  refine UInt32.toNat_inj.mp ?_
  split at h <;> split at h <;> omega

theorem FiniteF32.totalCmp_eq_iff {a b : FiniteF32} : a.totalCmp b = .eq ↔ a = b := by
  rw [totalCmp, compare_eq_iff_eq, totalCmpKey_injective.eq_iff, FiniteF32.mk.injEq]

theorem cmpValues_eq_iff : ∀ {vs ws : List RawValue},
    (∀ v ∈ vs, ∀ w, v.cmp w = .eq ↔ v = w) → (cmpValues vs ws = .eq ↔ vs = ws)
  | [], [], _ => by simp [cmpValues]
  | [], _ :: _, _ => by simp [cmpValues]
  | _ :: _, [], _ => by simp [cmpValues]
  | v :: vs, w :: ws, h => by
    obtain ⟨hv, hvs⟩ := forall_mem_cons.mp h
    rw [cmpValues, Ordering.then_eq_eq, hv, cmpValues_eq_iff hvs, List.cons.injEq]

theorem cmpEntries_eq_iff : ∀ {es fs : List (RawValue × RawValue)},
    (∀ e ∈ es, (∀ w, e.1.cmp w = .eq ↔ e.1 = w) ∧ ∀ w, e.2.cmp w = .eq ↔ e.2 = w) →
      (cmpEntries es fs = .eq ↔ es = fs)
  | [], [], _ => by simp [cmpEntries]
  | [], _ :: _, _ => by simp [cmpEntries]
  | _ :: _, [], _ => by simp [cmpEntries]
  | (k, v) :: es, (l, w) :: fs, h => by
    obtain ⟨⟨hk, hv⟩, hes⟩ := forall_mem_cons.mp h
    rw [cmpEntries, Ordering.then_eq_eq, Ordering.then_eq_eq, hk, hv, cmpEntries_eq_iff hes,
      List.cons.injEq, Prod.mk.injEq]

theorem cmpRows_eq_iff : ∀ {rows rows' : List (List RawValue)},
    (∀ row ∈ rows, ∀ v ∈ row, ∀ w, v.cmp w = .eq ↔ v = w) → (cmpRows rows rows' = .eq ↔ rows = rows')
  | [], [], _ => by simp [cmpRows]
  | [], _ :: _, _ => by simp [cmpRows]
  | _ :: _, [], _ => by simp [cmpRows]
  | row :: rows, row' :: rows', h => by
    obtain ⟨hrow, hrows⟩ := forall_mem_cons.mp h
    rw [cmpRows, Ordering.then_eq_eq, cmpValues_eq_iff hrow, cmpRows_eq_iff hrows, List.cons.injEq]

theorem cmpOptionValue_eq_iff {x y : Option RawValue}
    (h : ∀ v ∈ x, ∀ w, v.cmp w = .eq ↔ v = w) : cmpOptionValue x y = .eq ↔ x = y := by
  cases x <;> cases y <;> simp [cmpOptionValue, h]

theorem tag_compare_ne {a b : RawValue} (h : a.kind ≠ b.kind) :
    compare a.kind.tag b.kind.tag ≠ .eq := fun he =>
  h (ValueKind.tag_injective (Std.LawfulEqCmp.eq_of_compare he))

private theorem eq_iff_of_sameKind {a b : RawValue}
    (h : a.SameKind b → (a.cmp b = .eq ↔ a = b)) : a.cmp b = .eq ↔ a = b := by
  by_cases hk : a.kind = b.kind
  · exact h (RawValue.sameKind_of_kind_eq hk)
  · rw [RawValue.cmp_of_kind_ne hk]
    exact iff_of_false (tag_compare_ne hk) fun h => hk (congrArg RawValue.kind h)

/-- **Two values compare equal exactly when they are the same.** -/
theorem RawValue.cmp_eq_iff (a b : RawValue) : a.cmp b = .eq ↔ a = b := by
  induction a generalizing b with refine eq_iff_of_sameKind fun hab => ?_
  | bool a =>
    cases hab
    rename_i b
    cases a <;> cases b <;> simp [RawValue.cmp]
  | int a =>
    cases hab
    rw [RawValue.cmp, compare_eq_iff_eq, int.injEq, Integer.mk.injEq]
  | float a =>
    cases hab
    rw [RawValue.cmp, FiniteF32.totalCmp_eq_iff, float.injEq]
  | identity a =>
    cases hab
    rw [RawValue.cmp, Nat.compare_eq_eq, UInt64.toNat_inj, identity.injEq, Identity.mk.injEq]
  | symbol a =>
    cases hab
    rw [RawValue.cmp, Symbol.cmp_eq_iff, symbol.injEq]
  | errorCode a =>
    cases hab
    rw [RawValue.cmp, Symbol.cmp_eq_iff, errorCode.injEq]
  | string a =>
    cases hab
    rw [RawValue.cmp, cmpStr_eq_iff, string.injEq]
  | bytes a =>
    cases hab
    rw [RawValue.cmp, Std.LawfulEqOrd.compare_eq_iff_eq, bytes.injEq]
  | list vs ih =>
    cases hab
    rw [RawValue.cmp, cmpValues_eq_iff ih, list.injEq]
  | map es ih =>
    cases hab
    rw [RawValue.cmp, cmpEntries_eq_iff ih, map.injEq]
  | range a x iha ihx =>
    cases hab
    rw [RawValue.cmp, Ordering.then_eq_eq, iha, cmpOptionValue_eq_iff ihx, range.injEq]
  | error c m x ih =>
    cases hab
    rw [RawValue.cmp, Ordering.then_eq_eq, Ordering.then_eq_eq, Symbol.cmp_eq_iff,
      cmpOption_eq_iff fun _ _ _ => cmpStr_eq_iff, cmpOptionValue_eq_iff ih, error.injEq]
  | capability a =>
    cases hab
    rw [RawValue.cmp, Nat.compare_eq_eq, UInt64.toNat_inj, capability.injEq, CapabilityId.mk.injEq]
  | frob d a ih =>
    cases hab
    rw [RawValue.cmp, Ordering.then_eq_eq, Nat.compare_eq_eq, UInt64.toNat_inj, ih, frob.injEq,
      Identity.mk.injEq]
  | function a =>
    cases hab
    rw [RawValue.cmp, Nat.compare_eq_eq, UInt64.toNat_inj, function.injEq, FunctionId.mk.injEq]
  | relation h rows ih =>
    cases hab
    rw [RawValue.cmp, Ordering.then_eq_eq, cmpSymbols_eq_iff, cmpRows_eq_iff ih, relation.injEq]

instance : DecidableEq RawValue := fun a b => decidable_of_iff _ (RawValue.cmp_eq_iff a b)

/-! ## The encoding agrees with the order -/

/-- Numbers pushed with an offset agree with the comparison of the numbers. -/
theorem agrees_toBE_of_offset (w : ℕ) {i j c : ℤ} {n m : ℕ} (hi : (n : ℤ) = i + c)
    (hj : (m : ℤ) = j + c) (hn : n < 256 ^ w) (hm : m < 256 ^ w) :
    Agrees (compare i j) (toBE w n) (toBE w m) := by
  have hcmp : compare i j = compare n m := by
    rcases lt_trichotomy i j with h | h | h
    · rw [compare_lt_iff_lt.mpr h, compare_lt_iff_lt.mpr (show n < m by omega)]
    · rw [compare_eq_iff_eq.mpr h, compare_eq_iff_eq.mpr (show n = m by omega)]
    · rw [compare_gt_iff_gt.mpr h, compare_gt_iff_gt.mpr (show n > m by omega)]
  rw [hcmp]
  exact agrees_toBE w hn hm

theorem agrees_integer (a b : Integer) :
    Agrees (compare a.val b.val) (toBE 8 (normalizedInt a.val)) (toBE 8 (normalizedInt b.val)) := by
  have hlt : ∀ i : Integer, (normalizedInt i.val : ℤ) = i.val + 2 ^ 63 := by
    intro i
    have hlo := i.min_le
    have hhi := i.le_max
    unfold intMin at hlo
    unfold intMax at hhi
    exact normalizedInt_eq (by omega) (by omega)
  refine agrees_toBE_of_offset 8 (hlt a) (hlt b) ?_ ?_
  · exact BitVec.isLt _
  · exact BitVec.isLt _

theorem agrees_f32 (a b : FiniteF32) : Agrees (a.totalCmp b)
    (toBE 4 (orderedF32Bits a.bits).toNat) (toBE 4 (orderedF32Bits b.bits).toNat) :=
  agrees_toBE_of_offset 4 (orderedF32Bits_eq _) (orderedF32Bits_eq _) (UInt32.toNat_lt _)
    (UInt32.toNat_lt _)

theorem agrees_u64 (a b : UInt64) :
    Agrees (compare a.toNat b.toNat) (toBE 8 a.toNat) (toBE 8 b.toNat) :=
  agrees_toBE 8 a.toNat_lt b.toNat_lt

theorem agrees_symbol (a b : Symbol) :
    Agrees (a.cmp b) (toBE 8 a.id.toNat) (toBE 8 b.id.toNat) :=
  agrees_toBE 8 (lt_trans a.id.toNat_lt (by norm_num)) (lt_trans b.id.toNat_lt (by norm_num))

theorem agrees_heading : ∀ h k : List Symbol,
    Agrees (cmpSymbols h k) (encodeOrderedHeading h) (encodeOrderedHeading k)
  | [], [] => Agrees.nil.cons_self 0
  | [], _ :: _ => Agrees.of_ne (a := 0) (b := 1) (by decide) _ _
  | _ :: _, [] => Agrees.of_ne (a := 1) (b := 0) (by decide) _ _
  | a :: h, b :: k => ((agrees_symbol a b).append fun _ => agrees_heading h k).cons_self 1

theorem agrees_message : ∀ m n : Option String,
    Agrees (cmpOption cmpStr m n) (encodeOrderedMessage m) (encodeOrderedMessage n)
  | none, none => Agrees.nil.cons_self 0
  | none, some _ => Agrees.of_ne (a := 0) (b := 1) (by decide) _ _
  | some _, none => Agrees.of_ne (a := 1) (b := 0) (by decide) _ _
  | some m, some n => (agrees_terminated (utf8 m) (utf8 n)).cons_self 1

/-- The encoding agrees with the order at `a` against every canonical value. -/
def EncodesAt (a : RawValue) : Prop :=
  ∀ b : RawValue, a.isCanonical = true → b.isCanonical = true →
    Agrees (a.cmp b) a.encodeOrdered b.encodeOrdered

theorem agrees_list : ∀ {vs ws : List RawValue}, (∀ v ∈ vs, EncodesAt v) →
    valuesCanonical vs = true → valuesCanonical ws = true →
      Agrees (cmpValues vs ws) (encodeOrderedList vs) (encodeOrderedList ws)
  | [], [], _, _, _ => Agrees.nil.cons_self 0
  | [], _ :: _, _, _, _ => Agrees.of_ne (a := 0) (b := 1) (by decide) _ _
  | _ :: _, [], _, _, _ => Agrees.of_ne (a := 1) (b := 0) (by decide) _ _
  | v :: vs, w :: ws, h, hv, hw => by
    obtain ⟨h, hs⟩ := forall_mem_cons.mp h
    rw [valuesCanonical, and_eq_true] at hv hw
    exact ((h w hv.1 hw.1).append fun _ => agrees_list hs hv.2 hw.2).cons_self 1

/-- Cells of rows of one arity need no separators. -/
theorem agrees_cells : ∀ {vs ws : List RawValue}, (∀ v ∈ vs, EncodesAt v) →
    valuesCanonical vs = true → valuesCanonical ws = true → vs.length = ws.length →
      Agrees (cmpValues vs ws) (encodeOrderedCells vs) (encodeOrderedCells ws)
  | [], [], _, _, _, _ => Agrees.nil
  | v :: vs, w :: ws, h, hv, hw, hl => by
    obtain ⟨h, hs⟩ := forall_mem_cons.mp h
    rw [valuesCanonical, and_eq_true] at hv hw
    exact (h w hv.1 hw.1).append fun _ => agrees_cells hs hv.2 hw.2 (Nat.succ.inj hl)

theorem agrees_entries : ∀ {es fs : List (RawValue × RawValue)},
    (∀ e ∈ es, EncodesAt e.1 ∧ EncodesAt e.2) → entriesCanonical es = true →
      entriesCanonical fs = true →
        Agrees (cmpEntries es fs) (encodeOrderedEntries es) (encodeOrderedEntries fs)
  | [], [], _, _, _ => Agrees.nil.cons_self 0
  | [], _ :: _, _, _, _ => Agrees.of_ne (a := 0) (b := 1) (by decide) _ _
  | _ :: _, [], _, _, _ => Agrees.of_ne (a := 1) (b := 0) (by decide) _ _
  | (k, v) :: es, (l, w) :: fs, h, he, hf => by
    obtain ⟨⟨hk, hv⟩, hs⟩ := forall_mem_cons.mp h
    rw [entriesCanonical, and_eq_true, and_eq_true] at he hf
    have hkv : Agrees ((k.cmp l).then (v.cmp w)) (k.encodeOrdered ++ v.encodeOrdered)
        (l.encodeOrdered ++ w.encodeOrdered) :=
      (hk l he.1.1 hf.1.1).append fun _ => hv w he.1.2 hf.1.2
    exact (hkv.append fun _ => agrees_entries hs he.2 hf.2).cons_self 1

theorem agrees_rows {arity : ℕ} : ∀ {rows rows' : List (List RawValue)},
    (∀ row ∈ rows, ∀ v ∈ row, EncodesAt v) → rowsCanonical rows = true →
      rowsCanonical rows' = true → (∀ row ∈ rows, row.length = arity) →
        (∀ row ∈ rows', row.length = arity) →
          Agrees (cmpRows rows rows') (encodeOrderedRows rows) (encodeOrderedRows rows')
  | [], [], _, _, _, _, _ => Agrees.nil.cons_self 0
  | [], _ :: _, _, _, _, _, _ => Agrees.of_ne (a := 0) (b := 1) (by decide) _ _
  | _ :: _, [], _, _, _, _, _ => Agrees.of_ne (a := 1) (b := 0) (by decide) _ _
  | row :: rows, row' :: rows', h, hr, hr', hl, hl' => by
    obtain ⟨h, hs⟩ := forall_mem_cons.mp h
    obtain ⟨hl, hls⟩ := forall_mem_cons.mp hl
    obtain ⟨hl', hls'⟩ := forall_mem_cons.mp hl'
    rw [rowsCanonical, and_eq_true] at hr hr'
    exact ((agrees_cells h hr.1 hr'.1 (hl.trans hl'.symm)).append
      fun _ => agrees_rows hs hr.2 hr'.2 hls hls').cons_self 1

theorem agrees_option : ∀ {x y : Option RawValue}, (∀ v ∈ x, EncodesAt v) →
    optionCanonical x = true → optionCanonical y = true →
      Agrees (cmpOptionValue x y) (encodeOrderedOption x) (encodeOrderedOption y)
  | none, none, _, _, _ => Agrees.nil.cons_self 0
  | none, some _, _, _, _ => Agrees.of_ne (a := 0) (b := 1) (by decide) _ _
  | some _, none, _, _, _ => Agrees.of_ne (a := 1) (b := 0) (by decide) _ _
  | some v, some w, h, hx, hy => (h v rfl w hx hy).cons_self 1

theorem encodeOrdered_eq_cons (v : RawValue) :
    v.encodeOrdered = v.kind.tag :: v.encodeOrdered.tail := by
  cases v <;> rfl

private theorem encodesAt_of_sameKind {a : RawValue}
    (h : ∀ b : RawValue, a.isCanonical = true → b.isCanonical = true → a.SameKind b →
      Agrees (a.cmp b) a.encodeOrdered b.encodeOrdered) : EncodesAt a := by
  intro b ha hb
  by_cases hk : a.kind = b.kind
  · exact h b ha hb (RawValue.sameKind_of_kind_eq hk)
  · rw [RawValue.cmp_of_kind_ne hk, encodeOrdered_eq_cons a, encodeOrdered_eq_cons b]
    exact Agrees.of_ne (tag_compare_ne hk) _ _

/-- **The encodings of canonical values agree with their comparison, whatever follows them.** -/
theorem agrees_encodeOrdered (a : RawValue) : EncodesAt a := by
  induction a with refine encodesAt_of_sameKind fun b ha hb hab => ?_
  | bool a =>
    cases hab
    rename_i b
    exact Agrees.cons_self _ (by cases a <;> cases b <;> exact Agrees.of_length_eq rfl)
  | int a =>
    cases hab
    exact (agrees_integer a _).cons_self _
  | float a =>
    cases hab
    exact (agrees_f32 a _).cons_self _
  | identity a =>
    cases hab
    exact (agrees_u64 a.raw _).cons_self _
  | symbol a =>
    cases hab
    exact (agrees_symbol a _).cons_self _
  | errorCode a =>
    cases hab
    exact (agrees_symbol a _).cons_self _
  | string a =>
    cases hab
    exact (agrees_terminated (utf8 a) _).cons_self _
  | bytes a =>
    cases hab
    exact (agrees_terminated a _).cons_self _
  | list vs ih =>
    cases hab
    exact (agrees_list ih ha hb).cons_self _
  | map es ih =>
    cases hab
    rw [RawValue.isCanonical, and_eq_true] at ha hb
    exact (agrees_entries ih ha.1 hb.1).cons_self _
  | range a x iha ihx =>
    cases hab
    rw [RawValue.isCanonical, and_eq_true] at ha hb
    exact ((iha _ ha.1 hb.1).append fun _ => agrees_option ihx ha.2 hb.2).cons_self _
  | error c m x ih =>
    cases hab
    exact ((agrees_symbol c _).append fun _ =>
      (agrees_message m _).append fun _ => agrees_option ih ha hb).cons_self _
  | capability a =>
    cases hab
    exact (agrees_u64 a.raw _).cons_self _
  | frob d a ih =>
    cases hab
    rename_i e b
    exact ((agrees_u64 d.raw e.raw).append fun _ => ih b ha hb).cons_self _
  | function a =>
    cases hab
    exact (agrees_u64 a.raw _).cons_self _
  | relation h rows ih =>
    cases hab
    simp only [RawValue.isCanonical, and_eq_true, decide_eq_true_eq] at ha hb
    refine Agrees.cons_self _ ((agrees_heading h _).append fun hhk => ?_)
    -- equal headings give the two relations one arity
    rw [cmpSymbols_eq_iff] at hhk
    subst hhk
    exact agrees_rows ih ha.2 hb.2 ha.1.1.2 hb.1.1.2

/-! ## Values are linearly ordered -/

namespace Value

instance : DecidableEq Value := fun a b => decidable_of_iff (a.raw = b.raw) Value.ext_iff.symm

/-- `Ord for Value`. -/
def cmp (a b : Value) : Ordering := a.raw.cmp b.raw

/-- `Value::ordered_key_bytes`. -/
def orderedKeyBytes (v : Value) : Bytes := v.raw.encodeOrdered

theorem agrees (a b : Value) : Agrees (a.cmp b) a.orderedKeyBytes b.orderedKeyBytes :=
  agrees_encodeOrdered a.raw b.raw a.canonical b.canonical

theorem cmp_eq_compare (a b : Value) : a.cmp b = compare a.orderedKeyBytes b.orderedKeyBytes :=
  (agrees a b).compare_eq.symm

theorem cmp_eq_iff {a b : Value} : a.cmp b = .eq ↔ a = b :=
  (RawValue.cmp_eq_iff a.raw b.raw).trans Value.ext_iff.symm

theorem orderedKeyBytes_ne_nil (v : Value) : v.orderedKeyBytes ≠ [] := by
  unfold orderedKeyBytes
  rw [encodeOrdered_eq_cons]
  exact cons_ne_nil _ _

instance : LE Value := ⟨fun a b => (a.cmp b).isLE = true⟩

instance : LT Value := ⟨fun a b => a.cmp b = .lt⟩

instance : Ord Value := ⟨cmp⟩

instance decidableLE : DecidableLE Value := fun a b =>
  inferInstanceAs (Decidable ((a.cmp b).isLE = true))

instance decidableLT : DecidableLT Value := fun a b => inferInstanceAs (Decidable (a.cmp b = .lt))

theorem cmp_swap (a b : Value) : (a.cmp b).swap = b.cmp a := by
  rw [cmp_eq_compare, cmp_eq_compare]
  exact Std.OrientedCmp.eq_swap.symm

theorem lt_iff_le_not_ge (a b : Value) : a < b ↔ a ≤ b ∧ ¬b ≤ a := by
  change a.cmp b = .lt ↔ (a.cmp b).isLE = true ∧ ¬(b.cmp a).isLE = true
  rw [← cmp_swap a b]
  cases a.cmp b <;> decide

theorem le_total (a b : Value) : a ≤ b ∨ b ≤ a := by
  change (a.cmp b).isLE = true ∨ (b.cmp a).isLE = true
  rw [← cmp_swap a b]
  cases a.cmp b <;> decide

theorem le_antisymm {a b : Value} (hab : a ≤ b) (hba : b ≤ a) : a = b := by
  refine cmp_eq_iff.mp ?_
  change (a.cmp b).isLE = true at hab
  change (b.cmp a).isLE = true at hba
  rw [← cmp_swap a b] at hba
  revert hab hba
  cases a.cmp b <;> decide

theorem le_trans {a b c : Value} (hab : a ≤ b) (hbc : b ≤ c) : a ≤ c := by
  change (a.cmp c).isLE = true
  change (a.cmp b).isLE = true at hab
  change (b.cmp c).isLE = true at hbc
  rw [cmp_eq_compare] at hab hbc ⊢
  exact Std.TransCmp.isLE_trans hab hbc

instance : LinearOrder Value where
  le_refl a := by
    change (a.cmp a).isLE = true
    rw [cmp_eq_iff.mpr rfl]
    rfl
  le_trans _ _ _ := le_trans
  le_antisymm _ _ := le_antisymm
  le_total := le_total
  lt_iff_le_not_ge := lt_iff_le_not_ge
  toDecidableLE := decidableLE
  toDecidableLT := decidableLT
  toDecidableEq := inferInstance
  compare := cmp
  compare_eq_compareOfLessAndEq a b := by
    unfold compareOfLessAndEq
    by_cases hlt : a < b
    · rwa [if_pos hlt]
    rw [if_neg hlt]
    by_cases heq : a = b
    · rw [if_pos heq]
      exact cmp_eq_iff.mpr heq
    rw [if_neg heq]
    have h₁ : a.cmp b ≠ .lt := hlt
    have h₂ : a.cmp b ≠ .eq := fun h => heq (cmp_eq_iff.mp h)
    cases h : a.cmp b <;> simp_all

end Value

end Mica
