import Mica.Var.OrderedKey
import Mathlib.Data.List.Lex

/-!
# Var/Tuple — rows of values

A tuple is an immutable row; it has no relation and no schema of its own.  Rows compare
lexicographically, which is the order of `List Value`.
-/

open List

namespace Mica

/-- An immutable row of values. -/
abbrev Tuple := List Value

/-- What a scan asks of each column: a value, or nothing. -/
abbrev Bindings := List (Option Value)

namespace Tuple

/-- `Tuple::select`.  A position past the end panics in the source and is dropped here; every
caller passes positions that were checked against the arity. -/
def select (t : Tuple) (positions : List ℕ) : Tuple := positions.filterMap fun p => t[p]?

/-- `Tuple::matches_bindings`: every bound column holds the bound value. -/
def matchesBindings : Tuple → Bindings → Bool
  | _, [] => true
  | t, none :: bindings => matchesBindings t.tail bindings
  | v :: t, some w :: bindings => v == w && matchesBindings t bindings
  | [], some _ :: _ => false

theorem select_nil (t : Tuple) : t.select [] = [] := rfl

theorem select_cons {t : Tuple} {p : ℕ} {positions : List ℕ} (h : p < t.length) :
    t.select (p :: positions) = t[p] :: t.select positions := by
  rw [select, filterMap_cons, getElem?_eq_getElem h]
  rfl

theorem length_select {t : Tuple} {positions : List ℕ} (h : ∀ p ∈ positions, p < t.length) :
    (t.select positions).length = positions.length := by
  induction positions with
  | nil => rfl
  | cons p positions ih =>
    obtain ⟨hp, hps⟩ := forall_mem_cons.mp h
    rw [select_cons hp, length_cons, length_cons, ih hps]

theorem getElem?_select {t : Tuple} {positions : List ℕ} (h : ∀ p ∈ positions, p < t.length)
    (i : ℕ) : (t.select positions)[i]? = positions[i]?.bind fun p => t[p]? := by
  induction positions generalizing i with
  | nil => rfl
  | cons p positions ih =>
    obtain ⟨hp, hps⟩ := forall_mem_cons.mp h
    rw [select_cons hp]
    cases i with
    | zero => simp only [getElem?_cons_zero, Option.bind_some, getElem?_eq_getElem hp]
    | succ i => simpa only [getElem?_cons_succ] using ih hps i

/-- **Matching, column by column.** -/
theorem matchesBindings_iff : ∀ {t : Tuple} {bindings : Bindings},
    t.matchesBindings bindings = true ↔
      ∀ (p : ℕ) (w : Value), bindings[p]? = some (some w) → t[p]? = some w
  | t, [] => by simp [matchesBindings]
  | t, none :: bindings => by
    rw [matchesBindings, matchesBindings_iff]
    constructor
    · intro h p w hp
      cases p with
      | zero => simp at hp
      | succ p => simpa [getElem?_tail] using h p w hp
    · intro h p w hp
      simpa [getElem?_tail] using h (p + 1) w hp
  | v :: t, some w :: bindings => by
    rw [matchesBindings, Bool.and_eq_true, beq_iff_eq, matchesBindings_iff]
    constructor
    · rintro ⟨rfl, h⟩ p u hp
      cases p with
      | zero => simpa using hp
      | succ p => exact h p u hp
    · intro h
      refine ⟨?_, fun p u hp => h (p + 1) u hp⟩
      simpa using h 0 w rfl
  | [], some w :: bindings => by
    rw [matchesBindings]
    refine iff_of_false Bool.false_ne_true fun h => ?_
    simpa using h 0 w rfl

end Tuple

end Mica
