import Mica.Var.Tuple

/-!
# Kernel/RadixKey — the byte keys of tuples and indexes

A relation stores a tuple under the concatenated encodings of its values, and a secondary index
under the concatenated encodings of the columns it lists.  Because one encoding never begins
another, a byte prefix of a key is a prefix of the columns (`isPrefix_keyFromValues_iff`), which is
what makes prefix scans exact.
-/

open OrderCode List

namespace Mica

/-- `key_from_values`. -/
def keyFromValues (values : List Value) : Bytes := values.flatMap Value.orderedKeyBytes

@[simp] theorem keyFromValues_nil : keyFromValues [] = [] := rfl

@[simp] theorem keyFromValues_cons (v : Value) (vs : List Value) :
    keyFromValues (v :: vs) = v.orderedKeyBytes ++ keyFromValues vs := rfl

/-- `TupleIndex::tuple_key`: the key of a tuple in the index over `positions`. -/
def tupleKey (positions : List ℕ) (t : Tuple) : Bytes := keyFromValues (t.select positions)

/-- **A byte prefix of a key is a prefix of its columns.** -/
theorem isPrefix_keyFromValues_iff : ∀ {vs ws : List Value},
    keyFromValues vs <+: keyFromValues ws ↔ vs <+: ws
  | [], ws => by simp only [keyFromValues_nil, nil_prefix]
  | v :: vs, [] => by
    rw [keyFromValues_nil, prefix_nil, keyFromValues_cons, append_eq_nil_iff]
    exact iff_of_false (fun h => v.orderedKeyBytes_ne_nil h.1) (by simp)
  | v :: vs, w :: ws => by
    rw [keyFromValues_cons, keyFromValues_cons, cons_prefix_cons]
    constructor
    · intro h
      have hvw : v = w :=
        Value.cmp_eq_iff.mp (((v.agrees w).isPrefix_append_iff _).mp
          ((prefix_append _ _).trans h))
      subst hvw
      exact ⟨rfl, isPrefix_keyFromValues_iff.mp ((prefix_append_right_inj _).mp h)⟩
    · rintro ⟨rfl, h⟩
      exact (prefix_append_right_inj _).mpr (isPrefix_keyFromValues_iff.mpr h)

theorem keyFromValues_injective : Function.Injective keyFromValues := by
  intro vs ws h
  have hvw : vs <+: ws := isPrefix_keyFromValues_iff.mp (h ▸ prefix_rfl)
  have hwv : ws <+: vs := isPrefix_keyFromValues_iff.mp (h ▸ prefix_rfl)
  exact hvw.eq_of_length_le hwv.length_le

/-- **Keys compare as the rows.** -/
theorem compare_keyFromValues : ∀ vs ws : List Value,
    compare (keyFromValues vs) (keyFromValues ws) = compare vs ws
  | [], [] => rfl
  | [], w :: ws => by
    have hne : keyFromValues (w :: ws) ≠ [] := fun h =>
      w.orderedKeyBytes_ne_nil (append_eq_nil_iff.mp h).1
    obtain ⟨b, bytes, hb⟩ := exists_cons_of_ne_nil hne
    rw [hb]
    rfl
  | v :: vs, [] => by
    have hne : keyFromValues (v :: vs) ≠ [] := fun h =>
      v.orderedKeyBytes_ne_nil (append_eq_nil_iff.mp h).1
    obtain ⟨b, bytes, hb⟩ := exists_cons_of_ne_nil hne
    rw [hb]
    rfl
  | v :: vs, w :: ws => by
    have hcmp : compare v w = v.cmp w := rfl
    rw [keyFromValues_cons, keyFromValues_cons, v.agrees w, List.compare_cons_cons, hcmp,
      compare_keyFromValues vs ws]

theorem compare_eq_lt_iff : ∀ {vs ws : Tuple}, compare vs ws = .lt ↔ vs < ws
  | [], [] => iff_of_false (nofun) (lt_irrefl _)
  | [], w :: ws => iff_of_true rfl (nil_lt_cons w ws)
  | v :: vs, [] => iff_of_false (nofun) (List.not_lt_nil _)
  | v :: vs, w :: ws => by
    rw [List.compare_cons_cons, Ordering.then_eq_lt, compare_lt_iff_lt, compare_eq_iff_eq,
      compare_eq_lt_iff, List.cons_lt_cons_iff]

/-- Keys are ordered as the rows are. -/
theorem keyFromValues_lt_iff {vs ws : Tuple} :
    compare (keyFromValues vs) (keyFromValues ws) = .lt ↔ vs < ws := by
  rw [compare_keyFromValues, compare_eq_lt_iff]

theorem prefix_select_iff {positions : List ℕ} {t : Tuple} {values : List Value}
    (hp : ∀ p ∈ positions, p < t.length) (hlen : values.length ≤ positions.length) :
    values <+: t.select positions ↔
      ∀ (i p : ℕ) (v : Value), positions[i]? = some p → values[i]? = some v → t[p]? = some v := by
  rw [prefix_iff_getElem?]
  constructor
  · intro h i p v hi hv
    have hlt : i < values.length := (List.getElem?_eq_some_iff.mp hv).1
    have := h i hlt
    rwa [Tuple.getElem?_select hp, hi, Option.bind_some, ← getElem?_eq_getElem hlt,
      hv] at this
  · intro h i hi
    rw [Tuple.getElem?_select hp, getElem?_eq_getElem (by omega : i < positions.length),
      Option.bind_some]
    exact h i _ _ (getElem?_eq_getElem _) (getElem?_eq_getElem hi)

/-- **The ordered key encoding is order preserving and prefix free**: encodings compare as the
values do, none properly begins another, and the keys of an index that begin with the encoding of
some leading values are the keys of the tuples holding those values in the leading columns. -/
theorem orderedKey_order_prefixFree :
    (∀ a b : Value, compare a.orderedKeyBytes b.orderedKeyBytes = a.cmp b) ∧
    (∀ a b : Value, a.orderedKeyBytes <+: b.orderedKeyBytes → a = b) ∧
    ∀ (positions : List ℕ) (t : Tuple) (values : List Value), (∀ p ∈ positions, p < t.length) →
      values.length ≤ positions.length →
        (keyFromValues values <+: tupleKey positions t ↔
          ∀ (i p : ℕ) (v : Value),
            positions[i]? = some p → values[i]? = some v → t[p]? = some v) := by
  refine ⟨fun a b => (a.agrees b).compare_eq, fun a b h => ?_, fun positions t values hp hlen => ?_⟩
  · exact Value.cmp_eq_iff.mp ((a.agrees b).isPrefix_iff.mp h)
  · rw [tupleKey, isPrefix_keyFromValues_iff, prefix_select_iff hp hlen]

end Mica
