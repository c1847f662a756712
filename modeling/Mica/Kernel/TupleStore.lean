import Mica.Kernel.RadixKey
import Mica.Lib.ByteMap
import Mica.Lib.SortedList

/-!
# Kernel/TupleStore — the rows of a relation

The rows are kept in an ordered set until there are more than a threshold of them, and from then on
in a radix tree under their encoded keys.  Either way a store *is* the sorted set of its rows
(`TupleStore.rows`): each operation is one of that set, and a scan by leading columns is the
filtered set in order.
-/

open OrderCode SortedList List SortedSet

namespace Mica

/-- `TUPLE_STORE_RADIX_THRESHOLD`. -/
def tupleStoreRadixThreshold : ℕ := 4096

/-- **The rows of a relation**, in either representation. -/
inductive TupleStore (M : Type → Type) [ByteMap M] where
  | small (tuples : SortedSet Tuple)
  | radix (entries : M Tuple) (len : ℕ)
      (keyed : ∀ e ∈ ByteMap.entries entries, e.1 = keyFromValues e.2)
      (len_eq : len = (ByteMap.entries entries).length)

namespace TupleStore

variable {M : Type → Type} [ByteMap M]

variable {entries : M Tuple}

theorem pairwise_values (keyed : ∀ e ∈ ByteMap.entries entries, e.1 = keyFromValues e.2) :
    (ByteMap.values entries).Pairwise (· < ·) := by
  refine pairwise_map.mpr ((ByteMap.sorted entries).imp_of_mem fun he hf hlt => ?_)
  rwa [keyed _ he, keyed _ hf, keyFromValues_lt_iff] at hlt

/-- The rows, sorted. -/
def rows : TupleStore M → SortedSet Tuple
  | small tuples => tuples
  | radix entries _ keyed _ => ⟨ByteMap.values entries, pairwise_values keyed⟩

variable {t : Tuple}

/-- Membership in a radix tree, at the key of the tuple. -/
theorem mem_values (keyed : ∀ e ∈ ByteMap.entries entries, e.1 = keyFromValues e.2) :
    t ∈ ByteMap.values entries ↔ (keyFromValues t, t) ∈ ByteMap.entries entries := by
  rw [ByteMap.values, mem_map]
  constructor
  · rintro ⟨⟨k, t⟩, hmem, rfl⟩
    exact keyed _ hmem ▸ hmem
  · exact fun hmem => ⟨_, hmem, rfl⟩

theorem get_keyFromValues
    (keyed : ∀ e ∈ ByteMap.entries entries, e.1 = keyFromValues e.2) {u : Tuple} :
    ByteMap.get (keyFromValues t) entries = some u ↔ u = t ∧ t ∈ ByteMap.values entries := by
  rw [ByteMap.get_eq_some, mem_values keyed]
  constructor
  · intro hmem
    obtain rfl : t = u := keyFromValues_injective (keyed _ hmem)
    exact ⟨rfl, hmem⟩
  · rintro ⟨rfl, hmem⟩
    exact hmem

theorem isSome_get_keyFromValues (keyed : ∀ e ∈ ByteMap.entries entries, e.1 = keyFromValues e.2) :
    (ByteMap.get (keyFromValues t) entries).isSome = true ↔ t ∈ ByteMap.values entries := by
  rw [Option.isSome_iff_exists]
  exact ⟨fun ⟨u, hu⟩ => ((get_keyFromValues keyed).mp hu).2,
    fun hmem => ⟨t, (get_keyFromValues keyed).mpr ⟨rfl, hmem⟩⟩⟩

/-! ## The operations -/

def empty : TupleStore M := small SortedSet.empty

theorem keyed_insert {tuple : Tuple}
    (keyed : ∀ e ∈ ByteMap.entries entries, e.1 = keyFromValues e.2) :
    ∀ e ∈ ByteMap.entries (ByteMap.insert (keyFromValues tuple) tuple entries),
      e.1 = keyFromValues e.2 := by
  intro e he
  rcases ByteMap.mem_insert.mp he with rfl | he
  · rfl
  · exact keyed e he.2

/-- A radix tree over the given tuples. -/
def radixOf (tuples : List Tuple) : M Tuple :=
  ByteMap.insertAll (tuples.map fun t => (keyFromValues t, t)) ByteMap.empty

theorem mem_radixOf {tuples : List Tuple} (h : tuples.Nodup) {e : Bytes × Tuple} :
    e ∈ ByteMap.entries (radixOf tuples : M Tuple) ↔ e.1 = keyFromValues e.2 ∧ e.2 ∈ tuples := by
  have hkeys : ((tuples.map fun t => (keyFromValues t, t)).map Prod.fst).Nodup := by
    rw [map_map]
    exact h.map keyFromValues_injective
  rw [radixOf, ByteMap.mem_insertAll hkeys, ByteMap.entries_empty, mem_map]
  constructor
  · rintro (⟨t, ht, rfl⟩ | ⟨-, he⟩)
    · exact ⟨rfl, ht⟩
    · cases he
  · rintro ⟨hk, ht⟩
    exact .inl ⟨e.2, ht, Prod.ext hk.symm rfl⟩

theorem keyed_radixOf {tuples : List Tuple} (h : tuples.Nodup) :
    ∀ e ∈ ByteMap.entries (radixOf tuples : M Tuple), e.1 = keyFromValues e.2 :=
  fun _ he => ((mem_radixOf h).mp he).1

theorem length_radixOf {tuples : List Tuple} (h : tuples.Nodup) :
    tuples.length = (ByteMap.entries (radixOf tuples : M Tuple)).length := by
  have hperm : (tuples.map fun t => (keyFromValues t, t)).Perm
      (ByteMap.entries (radixOf tuples : M Tuple)) := by
    refine (perm_ext_iff_of_nodup (h.map fun _ _ h => congrArg Prod.snd h)
      (ByteMap.nodup_entries _)).mpr fun e => ?_
    rw [mem_radixOf h, mem_map]
    exact ⟨fun ⟨t, ht, he⟩ => he ▸ ⟨rfl, ht⟩, fun ⟨hk, ht⟩ => ⟨e.2, ht, Prod.ext hk.symm rfl⟩⟩
  rw [← hperm.length_eq, length_map]

/-- `promote_to_radix`, and the large case of `from_sorted_unique`. -/
def toRadix (tuples : SortedSet Tuple) : TupleStore M :=
  radix (radixOf tuples.list) tuples.list.length (keyed_radixOf (tuples.sorted.imp ne_of_lt))
    (length_radixOf (tuples.sorted.imp ne_of_lt))

/-- `from_sorted_unique`. -/
def fromSortedUnique (tuples : SortedSet Tuple) : TupleStore M :=
  if tuples.list.length ≤ tupleStoreRadixThreshold then small tuples else toRadix tuples

def len : TupleStore M → ℕ
  | small tuples => tuples.list.length
  | radix _ len _ _ => len

def isEmpty (store : TupleStore M) : Bool := store.len == 0

def contains (tuple : Tuple) : TupleStore M → Bool
  | small tuples => decide (tuple ∈ tuples)
  | radix entries _ _ _ => (ByteMap.get (keyFromValues tuple) entries).isSome

/-- `tuple_for_values` and `tuple_for_tuple`. -/
def tupleForValues (values : Tuple) : TupleStore M → Option Tuple
  | small tuples => if values ∈ tuples then some values else none
  | radix entries _ _ _ => ByteMap.get (keyFromValues values) entries

/-- `insert`, with what it returns: whether the tuple is new. -/
def insert (tuple : Tuple) : TupleStore M → TupleStore M × Bool
  | small tuples =>
    let inserted := decide (tuple ∉ tuples)
    let tuples := tuples.insert tuple
    if inserted ∧ tupleStoreRadixThreshold < tuples.list.length then (toRadix tuples, inserted)
    else (small tuples, inserted)
  | radix entries len keyed len_eq =>
    let key := keyFromValues tuple
    if h : (ByteMap.get key entries).isSome then
      (radix (ByteMap.insert key tuple entries) len (keyed_insert keyed)
        (by rw [len_eq, ByteMap.length_insert, if_pos h]), false)
    else
      (radix (ByteMap.insert key tuple entries) (len + 1) (keyed_insert keyed)
        (by rw [len_eq, ByteMap.length_insert, if_neg h]), true)

/-- `remove`, with what it returns: whether the tuple was there. -/
def remove (tuple : Tuple) : TupleStore M → TupleStore M × Bool
  | small tuples => (small (tuples.erase tuple), decide (tuple ∈ tuples))
  | radix entries len keyed len_eq =>
    let key := keyFromValues tuple
    if h : (ByteMap.get key entries).isSome then
      (radix (ByteMap.delete key entries) (len - 1)
        (fun e he => keyed e (ByteMap.mem_delete.mp he).2)
        (by rw [len_eq, ByteMap.length_delete, if_pos h]), true)
    else (radix entries len keyed len_eq, false)

/-- `matching`: every row that matches, found by looking at all of them. -/
def matching (bindings : Bindings) (store : TupleStore M) : List Tuple :=
  store.rows.list.filter fun t => t.matchesBindings bindings

/-- `natural_leading_bound_count`. -/
def naturalLeadingBoundCount (bindings : Bindings) : ℕ :=
  (bindings.takeWhile Option.isSome).length

/-- `natural_prefix_covers_all_bindings`. -/
def naturalPrefixCoversAllBindings (bindings : Bindings) (boundCount : ℕ) : Bool :=
  (bindings.drop boundCount).all Option.isNone

/-- `scan_prefix`: the rows under the bound leading columns, tested against the other bindings if
there are any. -/
def scanPrefix (bindings : Bindings) (boundCount : ℕ) : TupleStore M → List Tuple
  | small tuples => tuples.list.filter fun t => t.matchesBindings bindings
  | radix entries _ _ _ =>
    let covers := naturalPrefixCoversAllBindings bindings boundCount
    let key := keyFromValues ((bindings.take boundCount).filterMap id)
    (ByteMap.prefixValues key entries).filter fun t => covers || t.matchesBindings bindings

/-! ## The operations on the sorted set of rows -/

@[simp] theorem rows_toRadix (tuples : SortedSet Tuple) :
    (toRadix tuples : TupleStore M).rows = tuples := by
  refine ext_mem fun t => ?_
  have hnodup : tuples.list.Nodup := tuples.sorted.imp ne_of_lt
  exact (mem_values (keyed_radixOf hnodup)).trans
    ((mem_radixOf hnodup).trans (and_iff_right rfl))

@[simp] theorem rows_fromSortedUnique (tuples : SortedSet Tuple) :
    (fromSortedUnique tuples : TupleStore M).rows = tuples := by
  unfold fromSortedUnique
  split
  · rfl
  · exact rows_toRadix tuples

theorem len_eq_length (store : TupleStore M) : store.len = store.rows.list.length := by
  cases store with
  | small tuples => rfl
  | radix entries len keyed len_eq => exact len_eq.trans (length_map _).symm

variable {store : TupleStore M}

theorem isEmpty_iff : store.isEmpty = true ↔ ∀ t, t ∉ store.rows := by
  rw [isEmpty, beq_iff_eq, len_eq_length, length_eq_zero_iff]
  exact eq_nil_iff_forall_not_mem

@[simp] theorem contains_iff :
    store.contains t = true ↔ t ∈ store.rows := by
  cases store with
  | small tuples => exact decide_eq_true_iff
  | radix entries len keyed len_eq => exact isSome_get_keyFromValues keyed

theorem tupleForValues_eq (store : TupleStore M) (t : Tuple) :
    store.tupleForValues t = if t ∈ store.rows then some t else none := by
  cases store with
  | small tuples => rfl
  | radix entries len keyed len_eq =>
    refine Option.ext fun u => (get_keyFromValues keyed).trans ?_
    have hrows : t ∈ (radix entries len keyed len_eq).rows ↔ t ∈ ByteMap.values entries := Iff.rfl
    split
    · next h => simp only [hrows.mp h, and_true, Option.some.injEq, eq_comm]
    · next h => simp only [mt hrows.mpr h, and_false, reduceCtorEq]

@[simp] theorem insert_rows (store : TupleStore M) (t : Tuple) :
    (store.insert t).1.rows = store.rows.insert t := by
  cases store with
  | small tuples =>
    unfold insert
    dsimp only
    split
    · exact rows_toRadix _
    · rfl
  | radix entries len keyed len_eq =>
    have hmem : ∀ u, u ∈ ByteMap.values (ByteMap.insert (keyFromValues t) t entries) ↔
        u = t ∨ u ∈ ByteMap.values entries := by
      intro u
      rw [mem_values (keyed_insert keyed), mem_values keyed, ByteMap.mem_insert]
      constructor
      · rintro (heq | ⟨-, hu⟩)
        · exact .inl (Prod.mk.inj heq).2
        · exact .inr hu
      rintro (rfl | hu)
      · exact .inl rfl
      · by_cases htu : u = t
        · exact .inl (htu ▸ rfl)
        · exact .inr ⟨fun h => htu (keyFromValues_injective h), hu⟩
    refine ext_mem fun u => Iff.trans ?_ mem_insert.symm
    unfold insert
    dsimp only
    split
    · exact hmem u
    · exact hmem u

theorem insert_snd :
    (store.insert t).2 = true ↔ t ∉ store.rows := by
  cases store with
  | small tuples =>
    unfold insert
    dsimp only
    split
    · exact decide_eq_true_iff
    · exact decide_eq_true_iff
  | radix entries len keyed len_eq =>
    unfold insert
    dsimp only
    split
    · next h =>
      exact iff_of_false Bool.false_ne_true fun hn => hn ((isSome_get_keyFromValues keyed).mp h)
    · next h => exact iff_of_true rfl fun hn => h ((isSome_get_keyFromValues keyed).mpr hn)

@[simp] theorem remove_rows (store : TupleStore M) (t : Tuple) :
    (store.remove t).1.rows = store.rows.erase t := by
  cases store with
  | small tuples => rfl
  | radix entries len keyed len_eq =>
    refine ext_mem fun u => Iff.trans ?_ mem_erase.symm
    have hrows : u ∈ (radix entries len keyed len_eq).rows ↔ u ∈ ByteMap.values entries := Iff.rfl
    unfold remove
    dsimp only
    split
    · have hkeyed : ∀ e ∈ ByteMap.entries (ByteMap.delete (keyFromValues t) entries),
          e.1 = keyFromValues e.2 := fun e he => keyed e (ByteMap.mem_delete.mp he).2
      refine (mem_values hkeyed).trans ?_
      rw [ByteMap.mem_delete, hrows, mem_values keyed]
      exact and_congr_left' (not_congr keyFromValues_injective.eq_iff)
    rename_i h
    have ht : t ∉ ByteMap.values entries := fun hn => h ((isSome_get_keyFromValues keyed).mpr hn)
    rw [hrows]
    refine ⟨fun hu => ⟨?_, hu⟩, And.right⟩
    rintro rfl
    exact ht hu

theorem remove_snd :
    (store.remove t).2 = true ↔ t ∈ store.rows := by
  cases store with
  | small tuples => exact decide_eq_true_iff
  | radix entries len keyed len_eq =>
    unfold remove
    dsimp only
    split
    · next h => exact iff_of_true rfl ((isSome_get_keyFromValues keyed).mp h)
    · next h =>
      exact iff_of_false Bool.false_ne_true fun hn => h ((isSome_get_keyFromValues keyed).mpr hn)

/-! ## Scans by leading columns -/

theorem prefix_of_matchesBindings : ∀ {t : Tuple} {bindings : Bindings} {n : ℕ},
    n ≤ naturalLeadingBoundCount bindings → t.matchesBindings bindings = true →
      (bindings.take n).filterMap id <+: t
  | _, [], _, _, _ => by simp
  | _, none :: _, n, hn, _ => by
    obtain rfl : n = 0 := Nat.le_zero.mp hn
    simp
  | _, _ :: _, 0, _, _ => by simp
  | [], some _ :: _, _ + 1, _, h => nomatch h
  | v :: t, some w :: bindings, n + 1, hn, h => by
    obtain ⟨rfl, hrest⟩ : v = w ∧ Tuple.matchesBindings t bindings = true := by
      simpa [Tuple.matchesBindings] using h
    have hn : n ≤ naturalLeadingBoundCount bindings := by
      simpa [naturalLeadingBoundCount] using hn
    simpa using prefix_of_matchesBindings hn hrest

theorem matchesBindings_of_isNone : ∀ {t : Tuple} {bindings : Bindings},
    bindings.all Option.isNone = true → t.matchesBindings bindings = true
  | _, [], _ => by rw [Tuple.matchesBindings]
  | t, none :: bindings, h => by
    rw [Tuple.matchesBindings]
    exact matchesBindings_of_isNone (by simpa using h)
  | _, some _ :: _, h => by simp at h

theorem matchesBindings_of_prefix : ∀ {t : Tuple} {bindings : Bindings} {n : ℕ},
    n ≤ naturalLeadingBoundCount bindings → naturalPrefixCoversAllBindings bindings n = true →
      (bindings.take n).filterMap id <+: t → t.matchesBindings bindings = true
  | t, bindings, 0, _, hcovers, _ => matchesBindings_of_isNone hcovers
  | _, [], _ + 1, hn, _, _ => nomatch hn
  | _, none :: _, _ + 1, hn, _, _ => nomatch hn
  | t, some w :: bindings, n + 1, hn, hcovers, hp => by
    have hn : n ≤ naturalLeadingBoundCount bindings := by
      simpa [naturalLeadingBoundCount] using hn
    obtain ⟨rest, rfl⟩ := hp
    have hp : (bindings.take n).filterMap id <+: (bindings.take n).filterMap id ++ rest :=
      prefix_append _ _
    simpa [Tuple.matchesBindings] using matchesBindings_of_prefix hn hcovers hp

/-- **A scan by leading columns is the filtered set of rows.** -/
theorem scanPrefix_eq (store : TupleStore M) (bindings : Bindings) :
    store.scanPrefix bindings (naturalLeadingBoundCount bindings) =
      store.rows.list.filter fun t => t.matchesBindings bindings := by
  cases store with
  | small tuples => rfl
  | radix entries len keyed len_eq =>
    have hrows : (radix entries len keyed len_eq).rows.list =
        (ByteMap.entries entries).map Prod.snd := rfl
    rw [hrows, scanPrefix, ByteMap.prefixValues_eq, filter_map, filter_map,
      filter_filter]
    refine congrArg (List.map Prod.snd) (filter_congr fun e he => ?_)
    rw [Bool.eq_iff_iff, Bool.and_eq_true, isPrefixOf_iff_prefix, keyed e he,
      isPrefix_keyFromValues_iff]
    simp only [Function.comp_apply, Bool.or_eq_true]
    constructor
    · rintro ⟨hcovers | h, hp⟩
      · exact matchesBindings_of_prefix le_rfl hcovers hp
      · exact h
    · exact fun h => ⟨.inr h, prefix_of_matchesBindings le_rfl h⟩

end TupleStore

end Mica
