import Mica.Lib.Weighted

/-!
# Lib/WeightedMap — weighted sets that compute

A `WeightedMap` is a sorted map with integer weights and no entry of weight zero, so it is the same
thing as the weighted set `weights` (`ext_weights`).  `add` changes one weight and `addAll` a list
of them, one after the other.
-/

open Finsupp SortedList List SortedMap

/-- **A weighted set kept as a sorted map without zeros.** -/
@[ext] structure WeightedMap (κ : Type) [LinearOrder κ] where
  map : SortedMap κ ℤ
  nonzero : ∀ e ∈ map.list, e.2 ≠ 0

namespace WeightedMap

variable {κ : Type} [LinearOrder κ] {m m' : WeightedMap κ} {k : κ} {d : ℤ}

/-- The weight of a key. -/
def weight (m : WeightedMap κ) (k : κ) : ℤ := (m.map.get? k).getD 0

/-- The weighted set that a map stands for. -/
noncomputable def weights (m : WeightedMap κ) : κ →₀ ℤ := Weighted.entries m.map.list

theorem mem_list : (k, d) ∈ m.map.list ↔ m.weight k = d ∧ d ≠ 0 := by
  rw [← get?_eq_some, weight]
  constructor
  · intro h
    rw [h]
    exact ⟨rfl, m.nonzero _ (get?_eq_some.mp h)⟩
  rintro ⟨h, hd⟩
  rcases hget : m.map.get? k with _ | w
  · rw [hget] at h
    exact absurd h.symm hd
  rw [hget] at h
  exact congrArg some h

theorem mem_keys : k ∈ m.map.keys ↔ m.weight k ≠ 0 := by
  rw [SortedMap.keys, mem_map]
  constructor
  · rintro ⟨e, he, rfl⟩
    obtain ⟨h, hd⟩ := mem_list.mp he
    rwa [h]
  · intro h
    exact ⟨(k, m.weight k), mem_list.mpr ⟨rfl, h⟩, rfl⟩

theorem nodup_keys (m : WeightedMap κ) : (m.map.list.map Prod.fst).Nodup :=
  m.map.pairwise_keys.imp ne_of_lt

@[simp] theorem weights_apply (m : WeightedMap κ) (k : κ) : m.weights k = m.weight k := by
  have hsum : ∀ es : List (κ × ℤ), (es.map Prod.fst).Nodup →
      Weighted.entries es k = ((es.find? fun e => e.1 = k).map Prod.snd).getD 0 := by
    intro es hes
    induction es with
    | nil => rfl
    | cons e es ih =>
      obtain ⟨hnot, hrest⟩ := nodup_cons.mp hes
      rw [Weighted.entries_cons, Finsupp.add_apply, ih hrest, single_apply, find?_cons]
      by_cases h : e.1 = k
      · have hnone : es.find? (fun e => e.1 = k) = none :=
          find?_eq_none.mpr fun f hf hfk =>
            hnot (mem_map.mpr ⟨f, hf, (of_decide_eq_true hfk).trans h.symm⟩)
        simp [h, hnone]
      · simp [h]
  exact hsum m.map.list m.nodup_keys

/-- **A map is its weights.** -/
theorem ext_weights (h : ∀ k, m.weight k = m'.weight k) : m = m' := by
  refine WeightedMap.ext (SortedMap.ext (entries_eq_of_mem_iff m.map.sorted m'.map.sorted ?_))
  rintro ⟨k, d⟩
  rw [mem_list, mem_list, h]

/-! ## Operations -/

def empty : WeightedMap κ := ⟨SortedMap.empty, nofun⟩

@[simp] theorem weight_empty : (empty : WeightedMap κ).weight k = 0 := rfl

@[simp] theorem weights_empty : (empty : WeightedMap κ).weights = 0 := rfl

/-- Whether nothing has a weight. -/
def isEmpty (m : WeightedMap κ) : Bool := m.map.list.isEmpty

theorem isEmpty_iff : m.isEmpty = true ↔ ∀ k, m.weight k = 0 := by
  rw [isEmpty, List.isEmpty_iff]
  constructor
  · intro h k
    rw [weight, SortedMap.get?, h]
    rfl
  intro h
  refine eq_nil_iff_forall_not_mem.mpr ?_
  rintro ⟨k, d⟩ he
  obtain ⟨hk, hd⟩ := mem_list.mp he
  exact hd (hk.symm.trans (h k))

theorem eq_empty_of_isEmpty (h : m.isEmpty = true) : m = empty := by
  refine ext_weights fun k => ?_
  rw [isEmpty_iff.mp h k, weight_empty]

/-- Give a key a weight. -/
def set (k : κ) (d : ℤ) (hd : d ≠ 0) (m : WeightedMap κ) : WeightedMap κ where
  map := m.map.insert k d
  nonzero := by
    rintro ⟨k', d'⟩ he
    have hget := (get?_insert k').symm.trans (get?_eq_some.mpr he)
    split_ifs at hget with h
    · rwa [← Option.some.inj hget]
    · exact m.nonzero _ (get?_eq_some.mp hget)

theorem weight_set (hd : d ≠ 0) (k' : κ) :
    (m.set k d hd).weight k' = if k' = k then d else m.weight k' := by
  rw [weight, set, get?_insert]
  split_ifs <;> rfl

/-- The entries that pass a test. -/
def retain (p : κ → Bool) (m : WeightedMap κ) : WeightedMap κ where
  map := m.map.retain fun k _ => p k
  nonzero e he := m.nonzero e (mem_of_mem_filter he)

theorem weight_retain {p : κ → Bool} (k : κ) :
    (m.retain p).weight k = if p k = true then m.weight k else 0 := by
  rw [weight, retain, get?_retain, weight]
  cases m.map.get? k with
  | none => simp
  | some w => by_cases h : p k = true <;> simp [Option.filter, h]

/-- Forget a key. -/
def erase (k : κ) (m : WeightedMap κ) : WeightedMap κ where
  map := m.map.erase k
  nonzero e he := m.nonzero e (mem_of_mem_filter he)

theorem weight_erase (k' : κ) : (m.erase k).weight k' = if k' = k then 0 else m.weight k' := by
  rw [weight, erase, get?_erase]
  split_ifs <;> rfl

/-- Add to the weight of a key. -/
def add (m : WeightedMap κ) (k : κ) (d : ℤ) : WeightedMap κ :=
  if h : m.weight k + d = 0 then m.erase k else m.set k (m.weight k + d) h

theorem weight_add (k' : κ) : (m.add k d).weight k' = m.weight k' + if k' = k then d else 0 := by
  unfold add
  by_cases hk : k' = k
  · subst hk
    rw [if_pos rfl]
    split
    · next h => rw [weight_erase, if_pos rfl, h]
    · rw [weight_set, if_pos rfl]
  · rw [if_neg hk, add_zero]
    split
    · rw [weight_erase, if_neg hk]
    · rw [weight_set, if_neg hk]

theorem weights_add : (m.add k d).weights = m.weights + single k d := by
  ext k'
  rw [weights_apply, weight_add, Finsupp.add_apply, weights_apply, single_apply]
  simp [eq_comm]

/-- Add a list of weights, one after the other. -/
def addAll (m : WeightedMap κ) (es : List (κ × ℤ)) : WeightedMap κ :=
  es.foldl (fun m e => m.add e.1 e.2) m

theorem weights_addAll (es : List (κ × ℤ)) :
    (m.addAll es).weights = m.weights + Weighted.entries es := by
  induction es generalizing m with
  | nil => exact (add_zero _).symm
  | cons e es ih =>
    rw [Weighted.entries_cons, ← add_assoc, ← weights_add]
    exact ih

end WeightedMap
