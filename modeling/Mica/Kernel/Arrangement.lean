import Mica.Kernel.CompiledRule
import Mica.Kernel.PackedRelation
import Mica.Lib.WeightedMap

/-!
# Kernel/Arrangement — changes of relations, and what is kept for reading them fast

Differential maintenance weighs rows and bindings with 64-bit differences, and every sum and
product is checked.  Beside the rows of a relation it keeps **arrangements**, which group the rows
by the values of some columns, and a **trace**, the rows at some version followed by batches of
later changes.  Each stays exact: an arrangement under `apply`, a trace under `append`.
-/

open SortedList List SortedMap SortedSet Weighted

namespace Mica

/-! ## Checked arithmetic -/

/-- `i64::MAX`. -/
def maxDiff : ℤ := 2 ^ 63 - 1

/-- A number that an `i64` holds. -/
def FitsDiff (d : ℤ) : Prop := -2 ^ 63 ≤ d ∧ d ≤ maxDiff

instance (d : ℤ) : Decidable (FitsDiff d) := inferInstanceAs (Decidable (_ ∧ _))

theorem fitsDiff_of_abs_le {d : ℤ} (h : |d| ≤ maxDiff) : FitsDiff d := by
  have := abs_le.mp h
  unfold FitsDiff maxDiff at *
  omega

/-- Where an overflow is reported: the relation, what was being done and the version. -/
structure DiffSite where
  relation : RelationId
  operation : String
  version : ℕ

def DiffSite.overflow (site : DiffSite) (left right : ℤ) : KernelError :=
  .differentialWeightOverflow site.relation site.operation site.version left right

/-- `checked_multiply`. -/
def checkedMultiply (site : DiffSite) (left right : ℤ) : Except KernelError ℤ :=
  if FitsDiff (left * right) then .ok (left * right) else .error (site.overflow left right)

/-- `checked_accumulate`. -/
def checkedAccumulate {κ : Type} [LinearOrder κ] (site : DiffSite) (values : WeightedMap κ) (key : κ)
    (difference : ℤ) : Except KernelError (WeightedMap κ) :=
  if h : difference = 0 then .ok values
  else match values.map.get? key with
    | none => .ok (values.set key difference h)
    | some w =>
      if FitsDiff (w + difference) then
        if hsum : w + difference = 0 then .ok (values.erase key)
        else .ok (values.set key (w + difference) hsum)
      else .error (site.overflow w difference)

/-- The loop over `checked_accumulate`. -/
def accumulateAll {κ : Type} [LinearOrder κ] (site : DiffSite) :
    List (κ × ℤ) → WeightedMap κ → Except KernelError (WeightedMap κ)
  | [], values => .ok values
  | (key, difference) :: rest, values =>
    (checkedAccumulate site values key difference).bind (accumulateAll site rest)

section Accumulate

variable {κ : Type} [LinearOrder κ] {site : DiffSite} {values : WeightedMap κ}

/-- **One accumulation adds, unless the sum does not fit.** -/
theorem checkedAccumulate_ok {key : κ} {difference : ℤ}
    (h : FitsDiff (values.weight key + difference)) :
    checkedAccumulate site values key difference = .ok (values.add key difference) := by
  unfold checkedAccumulate
  split_ifs with hzero
  · refine congrArg Except.ok (WeightedMap.ext_weights fun k => ?_)
    rw [WeightedMap.weight_add, hzero, ite_self, add_zero]
  cases hget : values.map.get? key with
  | none =>
    have hw : values.weight key = 0 := by rw [WeightedMap.weight, hget, Option.getD_none]
    refine congrArg Except.ok (WeightedMap.ext_weights fun k => ?_)
    rw [WeightedMap.weight_set, WeightedMap.weight_add]
    split_ifs with hk
    · rw [hk, hw, zero_add]
    · rw [add_zero]
  | some w =>
    have hw : values.weight key = w := by rw [WeightedMap.weight, hget, Option.getD_some]
    rw [hw] at h
    dsimp only
    rw [if_pos h]
    simp only [WeightedMap.add, hw]
    split_ifs <;> rfl

/-- An accumulation that returns has added, and the sum fits. -/
theorem checkedAccumulate_inv {key : κ} {difference : ℤ} {out : WeightedMap κ}
    (h : checkedAccumulate site values key difference = .ok out) :
    out = values.add key difference ∧ (FitsDiff difference → (∀ k, FitsDiff (values.weight k)) →
      ∀ k, FitsDiff (out.weight k)) := by
  by_cases hfits : FitsDiff (values.weight key + difference)
  · obtain rfl := Except.ok.inj ((checkedAccumulate_ok hfits).symm.trans h)
    refine ⟨rfl, fun _ hvalues k => ?_⟩
    rw [WeightedMap.weight_add]
    split_ifs with hk
    · rwa [hk]
    · rw [add_zero]
      exact hvalues k
  unfold checkedAccumulate at h
  split_ifs at h with hzero
  · obtain rfl := Except.ok.inj h
    refine ⟨WeightedMap.ext_weights fun k => ?_, fun _ hvalues => hvalues⟩
    rw [WeightedMap.weight_add, hzero, ite_self, add_zero]
  cases hget : values.map.get? key with
  | none =>
    have hw : values.weight key = 0 := by rw [WeightedMap.weight, hget, Option.getD_none]
    rw [hget] at h
    obtain rfl := Except.ok.inj h
    refine ⟨WeightedMap.ext_weights fun k => ?_, fun hdiff _ => ?_⟩
    · rw [WeightedMap.weight_set, WeightedMap.weight_add]
      split_ifs with hk
      · rw [hk, hw, zero_add]
      · rw [add_zero]
    · rw [hw, zero_add] at hfits
      exact absurd hdiff hfits
  | some w =>
    have hw : values.weight key = w := by rw [WeightedMap.weight, hget, Option.getD_some]
    rw [hget] at h
    dsimp only at h
    rw [if_neg (hw ▸ hfits)] at h
    cases h

/-- A loop that returns has added, and the sums fit. -/
theorem accumulateAll_inv : ∀ {entries : List (κ × ℤ)} {values out : WeightedMap κ},
    accumulateAll site entries values = .ok out →
      out = values.addAll entries ∧ ((∀ e ∈ entries, FitsDiff e.2) →
        (∀ k, FitsDiff (values.weight k)) → ∀ k, FitsDiff (out.weight k))
  | [], values, out, h => by
    obtain rfl := Except.ok.inj h
    exact ⟨rfl, fun _ hvalues => hvalues⟩
  | (key, difference) :: rest, values, out, h => by
    unfold accumulateAll at h
    rcases hfirst : checkedAccumulate site values key difference with _ | middle
    · rw [hfirst] at h
      cases h
    rw [hfirst] at h
    obtain ⟨rfl, hfits⟩ := checkedAccumulate_inv hfirst
    obtain ⟨rfl, hrest⟩ := accumulateAll_inv h
    refine ⟨rfl, fun hentries hvalues => ?_⟩
    obtain ⟨he, hentries⟩ := forall_mem_cons.mp hentries
    exact hrest hentries (hfits he hvalues)

/-- **The loop adds its entries, if every partial sum fits.** -/
theorem accumulateAll_ok : ∀ {entries : List (κ × ℤ)} {values : WeightedMap κ},
    (∀ i k d, entries[i]? = some (k, d) →
      FitsDiff (values.weight k + Weighted.entries (entries.take i) k + d)) →
    accumulateAll site entries values = .ok (values.addAll entries)
  | [], _, _ => rfl
  | (key, difference) :: rest, values, h => by
    have hfirst := h 0 key difference rfl
    rw [take_zero, entries_nil, Finsupp.coe_zero, Pi.zero_apply, add_zero] at hfirst
    rw [accumulateAll, checkedAccumulate_ok hfirst]
    refine accumulateAll_ok fun i k d hi => ?_
    have hnext := h (i + 1) k d hi
    rw [take_succ_cons, entries_cons, Finsupp.add_apply, Finsupp.single_apply] at hnext
    rw [WeightedMap.weight_add]
    refine (congrArg FitsDiff ?_).mp hnext
    simp only [eq_comm (a := key)]
    ring

theorem accumulateAll_ok_of_prefixes {entries : List (κ × ℤ)}
    (h : ∀ i k, FitsDiff (values.weight k + Weighted.entries (entries.take i) k)) :
    accumulateAll site entries values = .ok (values.addAll entries) := by
  refine accumulateAll_ok fun i k d hi => ?_
  have hnext := h (i + 1) k
  rwa [take_add_one, hi, Option.toList_some, entries_append, Finsupp.add_apply,
    entries_cons, Finsupp.add_apply, Finsupp.single_eq_same, entries_nil,
    Finsupp.coe_zero, Pi.zero_apply, add_zero, ← add_assoc] at hnext

/-- With distinct keys, each sum is made once. -/
theorem accumulateAll_ok_of_nodup {entries : List (κ × ℤ)} (hnodup : (entries.map Prod.fst).Nodup)
    (h : ∀ e ∈ entries, FitsDiff (values.weight e.1 + e.2)) :
    accumulateAll site entries values = .ok (values.addAll entries) := by
  refine accumulateAll_ok fun i k d hi => ?_
  have hzero : Weighted.entries (entries.take i) k = 0 := by
    rw [entries_apply]
    have hnone : (entries.take i).filter (fun e => e.1 = k) = [] := by
      refine filter_eq_nil_iff.mpr fun e he hek => ?_
      obtain ⟨j, hj, rfl⟩ := getElem_of_mem he
      rw [length_take, lt_min_iff] at hj
      have hjk : (entries.map Prod.fst)[j]? = some k := by
        rw [getElem?_map, getElem?_eq_getElem hj.2, Option.map_some]
        simpa using hek
      have hik : (entries.map Prod.fst)[i]? = some k := by
        rw [getElem?_map, hi]
        rfl
      have hji := (getElem?_inj (by simpa using hj.2) hnodup).mp (hjk.trans hik.symm)
      omega
    rw [hnone]
    rfl
  rw [hzero, add_zero]
  exact h (k, d) (mem_of_getElem? hi)

end Accumulate

/-! ## Changes of a collection -/

/-- Rows with differences. -/
abbrev WeightedRows := WeightedMap Tuple

/-- The visible rows of a relation, in order. -/
abbrev Collection := SortedSet Tuple

/-- One for a row that is there, zero for one that is not. -/
def Collection.presence (rows : Collection) (t : Tuple) : ℤ := if t ∈ rows then 1 else 0

/-- The weighted set of a collection. -/
noncomputable def Collection.weights (rows : Collection) : Tuple →₀ ℤ :=
  Weighted.indicator rows.list

@[simp] theorem Collection.weights_apply (rows : Collection) (t : Tuple) :
    rows.weights t = rows.presence t := by
  rw [weights, indicator_apply_of_nodup (rows.sorted.imp ne_of_lt), presence]
  by_cases h : t ∈ rows
  · rw [if_pos h, if_pos (mem_list.mpr h)]
  · rw [if_neg h, if_neg (mt mem_list.mp h)]

/-- **The changes that take one collection to another.** -/
def Changes (old new : Collection) (changes : WeightedRows) : Prop :=
  ∀ t, changes.weight t = new.presence t - old.presence t

variable {old new : Collection} {changes : WeightedRows}

theorem Changes.weights_eq
    (h : Changes old new changes) : changes.weights = new.weights - old.weights := by
  ext t
  rw [WeightedMap.weights_apply, Finsupp.sub_apply, Collection.weights_apply,
    Collection.weights_apply, h t]

/-- Which rows there are after the changes. -/
theorem Changes.mem_iff (h : Changes old new changes) (t : Tuple) :
    t ∈ new ↔ 0 < changes.weight t ∨ t ∈ old ∧ ¬ changes.weight t < 0 := by
  rw [h t]
  unfold Collection.presence
  by_cases hold : t ∈ old <;> by_cases hnew : t ∈ new <;> simp [hold, hnew]

theorem Changes.pos_iff
    (h : Changes old new changes) (t : Tuple) : 0 < changes.weight t ↔ t ∉ old ∧ t ∈ new := by
  rw [h t]
  unfold Collection.presence
  by_cases hold : t ∈ old <;> by_cases hnew : t ∈ new <;> simp [hold, hnew]

theorem Changes.neg_iff
    (h : Changes old new changes) (t : Tuple) : changes.weight t < 0 ↔ t ∈ old ∧ t ∉ new := by
  rw [h t]
  unfold Collection.presence
  by_cases hold : t ∈ old <;> by_cases hnew : t ∈ new <;> simp [hold, hnew]

theorem Changes.abs_le (h : Changes old new changes) (t : Tuple) : |changes.weight t| ≤ 1 := by
  rw [h t]
  unfold Collection.presence
  split_ifs <;> simp

/-- Distinct rows of one arity, each with a difference of at most one. -/
structure UnitRows (arity : ℕ) (rows : List (Tuple × ℤ)) : Prop where
  nodup : (rows.map Prod.fst).Nodup
  unit : ∀ row ∈ rows, |row.2| ≤ 1
  length_eq : ∀ row ∈ rows, row.1.length = arity

/-- A collection as weighted rows. -/
def Collection.entries (rows : Collection) : List (Tuple × ℤ) := rows.list.map fun t => (t, 1)

theorem Collection.weights_eq (rows : Collection) :
    Weighted.entries rows.entries = rows.weights := (indicator_eq _).symm

theorem Collection.unitRows {arity : ℕ} {rows : Collection} (h : ∀ t ∈ rows, t.length = arity) :
    UnitRows arity rows.entries where
  nodup := by
    rw [entries, map_map]
    exact (map_id _).symm ▸ rows.sorted.imp ne_of_lt
  unit row hrow := by
    obtain ⟨t, -, rfl⟩ := mem_map.mp hrow
    exact abs_one.le
  length_eq row hrow := by
    obtain ⟨t, ht, rfl⟩ := mem_map.mp hrow
    exact h t ht

theorem Changes.unitRows {arity : ℕ}
    (h : Changes old new changes) (hold : ∀ t ∈ old, t.length = arity)
    (hnew : ∀ t ∈ new, t.length = arity) : UnitRows arity changes.map.list where
  nodup := changes.nodup_keys
  unit row hrow := by
    rw [← (WeightedMap.mem_list.mp hrow).1]
    exact h.abs_le row.1
  length_eq row hrow := by
    obtain ⟨hweight, hne⟩ := WeightedMap.mem_list.mp hrow
    by_cases hmem : row.1 ∈ new
    · exact hnew _ hmem
    · refine hold _ (by_contra fun hnot => hne ?_)
      rw [← hweight, h row.1, Collection.presence, Collection.presence, if_neg hmem,
        if_neg hnot, sub_zero]

/-! ## The difference of two collections -/

theorem minus_one_ne_zero : (-1 : ℤ) ≠ 0 := by decide

/-- Give a list of rows one weight. -/
def setRows (d : ℤ) (hd : d ≠ 0) (rows : List Tuple) (changes : WeightedRows) : WeightedRows :=
  rows.foldl (fun changes t => changes.set t d hd) changes

/-- The loop of `set_difference_changes`. -/
def mergeChanges : List Tuple → List Tuple → WeightedRows → WeightedRows
  | [], news, changes => setRows 1 Int.one_ne_zero news changes
  | olds, [], changes => setRows (-1) minus_one_ne_zero olds changes
  | old :: olds, new :: news, changes =>
    if old < new then
      mergeChanges olds (new :: news) (changes.set old (-1) minus_one_ne_zero)
    else if new < old then mergeChanges (old :: olds) news (changes.set new 1 Int.one_ne_zero)
    else mergeChanges olds news changes
  termination_by olds news => olds.length + news.length

/-- `set_difference_changes`. -/
def setDifferenceChanges (old new : Collection) : WeightedRows :=
  mergeChanges old.list new.list WeightedMap.empty

theorem weight_setRows {d : ℤ} {hd : d ≠ 0} (t : Tuple) : ∀ (rows : List Tuple)
    (changes : WeightedRows),
      (setRows d hd rows changes).weight t = if t ∈ rows then d else changes.weight t
  | [], changes => (if_neg not_mem_nil).symm
  | row :: rows, changes => by
    refine (weight_setRows t rows _).trans ?_
    rw [WeightedMap.weight_set]
    by_cases hrow : t = row
    · simp [hrow]
    · simp [hrow]

/-- What the loop writes: each row of one side only. -/
theorem weight_mergeChanges (t : Tuple) : ∀ (olds news : List Tuple) (changes : WeightedRows),
    olds.Pairwise (· < ·) → news.Pairwise (· < ·) →
      (mergeChanges olds news changes).weight t =
        if t ∈ olds then if t ∈ news then changes.weight t else -1
        else if t ∈ news then 1 else changes.weight t
  | [], news, changes, _, _ => by
    rw [mergeChanges, weight_setRows, if_neg not_mem_nil]
  | old :: olds, [], changes, _, _ => by
    rw [mergeChanges, weight_setRows, if_neg not_mem_nil, if_neg not_mem_nil]
    exact nofun
  | old :: olds, new :: news, changes, hold, hnew => by
    obtain ⟨holds, hold'⟩ := pairwise_cons.mp hold
    obtain ⟨hnews, hnew'⟩ := pairwise_cons.mp hnew
    rw [mergeChanges]
    rcases lt_trichotomy old new with hlt | rfl | hgt
    · rw [if_pos hlt, weight_mergeChanges t olds (new :: news) _ hold' hnew, WeightedMap.weight_set]
      have hnot : old ∉ new :: news := fun hmem =>
        (mem_cons.mp hmem).elim (fun h => hlt.ne h) fun h => (hlt.trans (hnews _ h)).ne rfl
      have hnot' : old ∉ olds := fun hmem => (holds _ hmem).ne rfl
      by_cases heq : t = old
      · rw [heq, if_neg hnot', if_neg hnot, if_pos rfl, if_pos mem_cons_self, if_neg hnot]
      · simp only [mem_cons, heq, false_or, if_false]
    · rw [if_neg (lt_irrefl _), if_neg (lt_irrefl _), weight_mergeChanges t olds news _ hold' hnew']
      by_cases heq : t = old
      · have hnot : old ∉ olds := fun hmem => (holds _ hmem).ne rfl
        have hnot' : old ∉ news := fun hmem => (hnews _ hmem).ne rfl
        rw [heq, if_neg hnot, if_neg hnot', if_pos mem_cons_self, if_pos mem_cons_self]
      · simp only [mem_cons, heq, false_or]
    · rw [if_neg hgt.not_gt, if_pos hgt, weight_mergeChanges t (old :: olds) news _ hold hnew',
        WeightedMap.weight_set]
      have hnot : new ∉ old :: olds := fun hmem =>
        (mem_cons.mp hmem).elim (fun h => hgt.ne h) fun h => (hgt.trans (holds _ h)).ne rfl
      by_cases heq : t = new
      · rw [heq, if_neg hnot, if_pos rfl, if_neg hnot, if_pos mem_cons_self]
        exact ite_self 1
      · simp only [mem_cons, heq, false_or, if_false]
  termination_by olds news => olds.length + news.length

/-- **The set difference is the change between the collections.** -/
theorem changes_setDifferenceChanges (old new : Collection) :
    Changes old new (setDifferenceChanges old new) := by
  intro t
  rw [setDifferenceChanges, weight_mergeChanges t _ _ _ old.sorted new.sorted]
  unfold Collection.presence
  by_cases hold : t ∈ old <;> by_cases hnew : t ∈ new <;>
    simp [mem_list, hold, hnew]

/-! ## Arrangements -/

structure ArrangementSpec where
  relation : RelationId
  positions : List ℕ
  deriving DecidableEq

structure Arrangement where
  spec : ArrangementSpec
  rowsByKey : SortedMap (List Value) Collection

namespace Arrangement

/-- The rows under a key of a map. -/
def rowsAt (rowsByKey : SortedMap (List Value) Collection) (key : List Value) : Collection :=
  (rowsByKey.get? key).getD SortedSet.empty

/-- `Arrangement::lookup`. -/
def lookup (arrangement : Arrangement) (key : List Value) : Collection :=
  rowsAt arrangement.rowsByKey key

/-- `Arrangement::build`.  The rows come in order, so a push is an insert. -/
def build (spec : ArrangementSpec) (rows : Collection) : Arrangement where
  spec := spec
  rowsByKey := rows.list.foldl (fun grouped t =>
    grouped.insert (t.select spec.positions) ((rowsAt grouped (t.select spec.positions)).insert t))
    SortedMap.empty

/-- One change of `Arrangement::apply`. -/
def applyChange (positions : List ℕ) (rowsByKey : SortedMap (List Value) Collection)
    (change : Tuple × ℤ) : SortedMap (List Value) Collection :=
  let key := change.1.select positions
  let rows := rowsAt rowsByKey key
  let rows := if 0 < change.2 then rows.insert change.1
    else if change.2 < 0 then rows.erase change.1 else rows
  if rows.list.isEmpty then rowsByKey.erase key else rowsByKey.insert key rows

/-- `Arrangement::apply`. -/
def apply (arrangement : Arrangement) (changes : WeightedRows) : Arrangement where
  spec := arrangement.spec
  rowsByKey := changes.map.list.foldl (applyChange arrangement.spec.positions) arrangement.rowsByKey

/-- **An arrangement of rows**: under a key are the rows with that key. -/
def Exact (rows : Collection) (arrangement : Arrangement) : Prop :=
  ∀ key t, t ∈ arrangement.lookup key ↔ t ∈ rows ∧ t.select arrangement.spec.positions = key

theorem rowsAt_applyChange (positions : List ℕ) (rowsByKey : SortedMap (List Value) Collection)
    (t : Tuple) (d : ℤ) (key : List Value) (u : Tuple) :
    u ∈ rowsAt (applyChange positions rowsByKey (t, d)) key ↔
      if key = t.select positions then
        (if 0 < d then u = t ∨ u ∈ rowsAt rowsByKey key
          else if d < 0 then u ≠ t ∧ u ∈ rowsAt rowsByKey key else u ∈ rowsAt rowsByKey key)
      else u ∈ rowsAt rowsByKey key := by
  unfold applyChange
  dsimp only
  set rows := if 0 < d then (rowsAt rowsByKey (t.select positions)).insert t
    else if d < 0 then (rowsAt rowsByKey (t.select positions)).erase t
      else rowsAt rowsByKey (t.select positions) with hrows
  have hmem : u ∈ rows ↔ (if 0 < d then u = t ∨ u ∈ rowsAt rowsByKey (t.select positions)
      else if d < 0 then u ≠ t ∧ u ∈ rowsAt rowsByKey (t.select positions)
        else u ∈ rowsAt rowsByKey (t.select positions)) := by
    rw [hrows]
    split_ifs with h h'
    · exact mem_insert
    · exact mem_erase
    · exact Iff.rfl
  by_cases hkey : key = t.select positions
  · rw [if_pos hkey, hkey, ← hmem]
    split_ifs with hempty
    · rw [rowsAt, get?_erase, if_pos rfl, Option.getD_none]
      rw [List.isEmpty_iff] at hempty
      rw [← mem_list (s := rows), hempty]
      exact iff_of_false (notMem_empty u) not_mem_nil
    · rw [rowsAt, get?_insert_self, Option.getD_some]
  · rw [if_neg hkey]
    split_ifs
    · rw [rowsAt, get?_erase, if_neg hkey, rowsAt]
    · rw [rowsAt, get?_insert_of_ne hkey, rowsAt]

/-- The rows under a key after a list of changes of distinct rows. -/
theorem rowsAt_foldl (positions : List ℕ) : ∀ {changes : List (Tuple × ℤ)}
    {rowsByKey : SortedMap (List Value) Collection}, (changes.map Prod.fst).Nodup →
      ∀ key u, u ∈ rowsAt (changes.foldl (applyChange positions) rowsByKey) key ↔
        (∃ d, (u, d) ∈ changes ∧ 0 < d ∧ key = u.select positions) ∨
          u ∈ rowsAt rowsByKey key ∧
            ¬ ∃ d, (u, d) ∈ changes ∧ d < 0 ∧ key = u.select positions
  | [], rowsByKey, _, key, u => by simp
  | (t, d) :: changes, rowsByKey, hnodup, key, u => by
    obtain ⟨hnot, hrest⟩ := nodup_cons.mp hnodup
    rw [foldl_cons, rowsAt_foldl positions hrest, rowsAt_applyChange]
    have hother : ∀ d', (t, d') ∉ changes := fun d' h =>
      hnot (mem_map.mpr ⟨_, h, rfl⟩)
    by_cases hut : u = t
    · subst hut
      by_cases hkey : key = u.select positions
      · rw [if_pos hkey]
        by_cases hpos : 0 < d
        · simp [hother, hkey, hpos, hpos.not_gt]
        · by_cases hneg : d < 0
          · simp [hother, hkey, hpos, hneg]
          · simp [hother, hkey, hpos, hneg]
      · simp [hkey]
    · by_cases hkey : key = t.select positions
      · rw [if_pos hkey]
        split_ifs with hpos hneg <;> simp [hut]
      · rw [if_neg hkey]
        simp [hut]

/-- What is applied may count rows that are there already. -/
theorem apply_exact_of_mem_iff {old new : Collection} {changes : WeightedRows}
    (h : ∀ t, t ∈ new ↔ 0 < changes.weight t ∨ t ∈ old ∧ ¬ changes.weight t < 0)
    {arrangement : Arrangement} (hexact : arrangement.Exact old) :
    (arrangement.apply changes).Exact new := by
  intro key t
  refine (rowsAt_foldl arrangement.spec.positions changes.nodup_keys key t).trans ?_
  have hpos : (∃ d, (t, d) ∈ changes.map.list ∧ 0 < d ∧ key = t.select arrangement.spec.positions) ↔
      0 < changes.weight t ∧ key = t.select arrangement.spec.positions := by
    constructor
    · rintro ⟨d, hd, hlt, hkey⟩
      rw [(WeightedMap.mem_list.mp hd).1]
      exact ⟨hlt, hkey⟩
    · rintro ⟨hlt, hkey⟩
      exact ⟨_, WeightedMap.mem_list.mpr ⟨rfl, hlt.ne'⟩, hlt, hkey⟩
  have hneg : (∃ d, (t, d) ∈ changes.map.list ∧ d < 0 ∧ key = t.select arrangement.spec.positions) ↔
      changes.weight t < 0 ∧ key = t.select arrangement.spec.positions := by
    constructor
    · rintro ⟨d, hd, hlt, hkey⟩
      rw [(WeightedMap.mem_list.mp hd).1]
      exact ⟨hlt, hkey⟩
    · rintro ⟨hlt, hkey⟩
      exact ⟨_, WeightedMap.mem_list.mpr ⟨rfl, hlt.ne⟩, hlt, hkey⟩
  have hold : t ∈ rowsAt arrangement.rowsByKey key ↔
      t ∈ old ∧ t.select arrangement.spec.positions = key := hexact key t
  rw [hpos, hneg, hold, h t]
  change _ ↔ _ ∧ t.select arrangement.spec.positions = key
  rw [eq_comm (a := key)]
  tauto

theorem apply_exact {old new : Collection} {changes : WeightedRows} (h : Changes old new changes)
    {arrangement : Arrangement} (hexact : arrangement.Exact old) :
    (arrangement.apply changes).Exact new :=
  apply_exact_of_mem_iff h.mem_iff hexact

theorem build_exact (spec : ArrangementSpec) (rows : Collection) : (build spec rows).Exact rows := by
  have hfold : ∀ (l : List Tuple) (grouped : SortedMap (List Value) Collection) (key : List Value)
      (t : Tuple), t ∈ rowsAt (l.foldl (fun grouped t => grouped.insert (t.select spec.positions)
        ((rowsAt grouped (t.select spec.positions)).insert t)) grouped) key ↔
      t ∈ rowsAt grouped key ∨ t ∈ l ∧ t.select spec.positions = key := by
    intro l
    induction l with
    | nil => simp
    | cons u l ih =>
      intro grouped key t
      rw [foldl_cons, ih, rowsAt, get?_insert]
      split_ifs with hkey
      · rw [Option.getD_some, mem_insert, hkey, mem_cons]
        by_cases htu : t = u
        · simp [htu]
        · simp [htu]
      rw [← rowsAt, mem_cons]
      by_cases htu : t = u
      · subst htu
        simp [Ne.symm hkey]
      · simp [htu]
  intro key t
  refine (hfold rows.list SortedMap.empty key t).trans ?_
  simp [rowsAt, build, notMem_empty, mem_list]

end Arrangement

/-! ## Traces -/

/-- Rows with their differences, at a version. -/
structure TraceBatch where
  epoch : ℕ
  rows : List (Tuple × ℤ)

namespace TraceBatch

/-- `TraceBatch::from_rows`. -/
def fromRows (epoch : ℕ) (rows : List (Tuple × ℤ)) : TraceBatch :=
  ⟨epoch, rows.filter fun row => row.2 ≠ 0⟩

/-- `TraceBatch::from_set`. -/
def fromSet (epoch : ℕ) (rows : Collection) : TraceBatch :=
  fromRows epoch rows.entries

theorem rows_fromSet (epoch : ℕ) (rows : Collection) :
    (fromSet epoch rows).rows = rows.entries :=
  filter_eq_self.mpr fun row hrow => by
    obtain ⟨t, -, rfl⟩ := mem_map.mp hrow
    rfl

/-- `retained_bytes`: a row is a fat pointer, its values and a difference. -/
def retainedBytes (batch : TraceBatch) : ℕ :=
  (batch.rows.map fun row => 16 + row.1.length * 8 + 8).sum

/-- `TraceBatch::packed`. -/
def packed (batch : TraceBatch) : Option PackedRelation :=
  match batch.rows with
  | [] => none
  | (t, _) :: _ => PackedRelation.fromCanonicalTuples (batch.rows.map Prod.fst) t.length

end TraceBatch

structure Trace where
  base : TraceBatch
  batches : List TraceBatch

namespace Trace

/-- `TRACE_COMPACTION_BATCHES`. -/
def compactionBatches : ℕ := 8

/-- `Trace::initialize`. -/
def initial (epoch : ℕ) (rows : Collection) : Trace := ⟨TraceBatch.fromSet epoch rows, []⟩

/-- `Trace::append`, without the count of compacted rows. -/
def append (trace : Trace) (epoch : ℕ) (changes : WeightedRows) (current : Collection) : Trace :=
  let batches := trace.batches ++ [TraceBatch.fromRows epoch changes.map.list]
  let deltaBytes := (batches.map TraceBatch.retainedBytes).sum
  if compactionBatches ≤ batches.length ∨ max trace.base.retainedBytes 1 ≤ deltaBytes * 4 then
    initial epoch current
  else ⟨trace.base, batches⟩

/-- `Trace::batches`. -/
def allBatches (trace : Trace) : List TraceBatch := trace.base :: trace.batches

/-- **A trace of rows**: the batches add up to the rows. -/
structure Exact (arity : ℕ) (rows : Collection) (trace : Trace) : Prop where
  weights_eq : Weighted.entries (trace.allBatches.flatMap TraceBatch.rows) = rows.weights
  valid : ∀ batch ∈ trace.allBatches, UnitRows arity batch.rows
  few : trace.batches.length < compactionBatches

theorem initial_exact {arity : ℕ} (epoch : ℕ) {rows : Collection}
    (h : ∀ t ∈ rows, t.length = arity) : (initial epoch rows).Exact arity rows where
  weights_eq := by
    rw [allBatches, initial, flatMap_singleton, TraceBatch.rows_fromSet,
      Collection.weights_eq]
  valid batch hbatch := by
    obtain rfl := mem_singleton.mp hbatch
    exact (TraceBatch.rows_fromSet epoch rows).symm ▸ Collection.unitRows h
  few := by
    rw [initial, length_nil, compactionBatches]
    decide

/-- **Appending the changes of the rows keeps a trace exact**, compacted or not. -/
theorem append_exact {arity : ℕ} {old new : Collection} {changes : WeightedRows}
    (h : Changes old new changes) (hold : ∀ t ∈ old, t.length = arity)
    (hnew : ∀ t ∈ new, t.length = arity) {trace : Trace} (hexact : trace.Exact arity old)
    (epoch : ℕ) : (trace.append epoch changes new).Exact arity new := by
  unfold append
  dsimp only
  have hrows : (TraceBatch.fromRows epoch changes.map.list).rows = changes.map.list :=
    filter_eq_self.mpr fun row hrow => decide_eq_true (changes.nonzero row hrow)
  split_ifs with hcompact
  · exact initial_exact epoch hnew
  have hlen : (trace.batches ++ [TraceBatch.fromRows epoch changes.map.list]).length <
      compactionBatches := by
    by_contra hge
    exact hcompact (.inl (not_lt.mp hge))
  refine ⟨?_, ?_, hlen⟩
  · have hall : (Trace.mk trace.base (trace.batches ++
        [TraceBatch.fromRows epoch changes.map.list])).allBatches =
        trace.allBatches ++ [TraceBatch.fromRows epoch changes.map.list] := rfl
    rw [hall, flatMap_append, entries_append, hexact.weights_eq,
      flatMap_singleton, hrows]
    change old.weights + changes.weights = new.weights
    rw [h.weights_eq]
    exact add_sub_cancel _ _
  intro batch hbatch
  have hcases : batch ∈ trace.allBatches ∨
      batch = TraceBatch.fromRows epoch changes.map.list := by
    rcases mem_cons.mp hbatch with rfl | hbatch
    · exact .inl mem_cons_self
    · rcases mem_append.mp hbatch with hbatch | hbatch
      · exact .inl (mem_cons_of_mem _ hbatch)
      · exact .inr (mem_singleton.mp hbatch)
  rcases hcases with hbatch | rfl
  · exact hexact.valid batch hbatch
  · rw [hrows]
    exact h.unitRows hold hnew

/-- A trace through the collections of a run; a version without changes appends nothing. -/
def follow (trace : Trace) (old : Collection) : List (ℕ × Collection) → Trace
  | [] => trace
  | (epoch, new) :: rest =>
    let changes := setDifferenceChanges old new
    (if changes.map.list = [] then trace else trace.append epoch changes new).follow new rest

theorem Exact.follow {arity : ℕ} : ∀ (runs : List (ℕ × Collection)) {old : Collection} {trace : Trace},
    (∀ rows ∈ old :: runs.map Prod.snd, ∀ t ∈ rows, t.length = arity) → trace.Exact arity old →
      (trace.follow old runs).Exact arity ((runs.map Prod.snd).getLastD old)
  | [], _, _, _, hexact => hexact
  | (epoch, new) :: runs, old, trace, h, hexact => by
    have hchanges := changes_setDifferenceChanges old new
    obtain ⟨hold, hnew, -⟩ := forall_mem_cons.mp h |>.imp_right forall_mem_cons.mp
    rw [map_cons, getLastD_cons]
    refine Exact.follow runs (forall_mem_cons.mp h).2 ?_
    split_ifs with hempty
    · have hsame : new.weights = old.weights := by
        rw [← sub_eq_zero, ← hchanges.weights_eq, WeightedMap.weights, hempty, entries_nil]
      exact ⟨hexact.weights_eq.trans hsame.symm, hexact.valid, hexact.few⟩
    · exact append_exact hchanges hold hnew hexact epoch

/-- **A trace stands for the rows of its version**: through any collections of one arity, compacted
or not, its fewer than nine batches are signed rows that add up to the last collection. -/
theorem follow_exact {arity : ℕ} (epoch : ℕ) {rows : Collection} {runs : List (ℕ × Collection)}
    (h : ∀ c ∈ rows :: runs.map Prod.snd, ∀ t ∈ c, t.length = arity) :
    ((initial epoch rows).follow rows runs).Exact arity ((runs.map Prod.snd).getLastD rows) :=
  .follow runs h (initial_exact epoch (h rows mem_cons_self))

/-- A dozen rows, of which one goes. -/
def dozen : Collection := SortedSet.ofList ((range 12).map fun n => [.symbol ⟨n.toUInt32⟩])

def eleven : Collection := dozen.erase [.symbol ⟨3⟩]

/-- A row is retracted and another comes, and the trace keeps both changes as batches. -/
theorem follow_exact_dozen :
    ((initial 0 dozen).follow dozen [(1, eleven), (2, eleven.insert [.symbol ⟨12⟩])]).batches.length =
      2 ∧
    ((initial 0 dozen).follow dozen [(1, eleven), (2, eleven.insert [.symbol ⟨12⟩])]).Exact 1
      (eleven.insert [.symbol ⟨12⟩]) :=
  ⟨by decide +kernel, @follow_exact 1 0 dozen [(1, eleven), (2, eleven.insert [.symbol ⟨12⟩])]
    (by decide +kernel)⟩

end Trace

end Mica
