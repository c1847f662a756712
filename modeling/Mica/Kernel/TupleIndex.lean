import Mica.Kernel.Metadata
import Mica.Kernel.TupleStore
import Mathlib.Data.List.TakeWhile

/-!
# Kernel/TupleIndex — secondary indexes

An index maps the encoded values of its columns to the bucket of rows that hold them.  An index with
as many positions as the relation has columns is taken to have unique keys, and then a bucket is
overwritten rather than extended.  That is right exactly when those positions are all different
(`TupleIndexSpec.Faithful`).

* `TupleIndex.Indexes` — an index holds a set of rows: the bucket of a key is the rows of that key.
* `Indexes.insert`, `Indexes.remove`, `indexes_fromSortedUniqueRows` — faithful indexes are kept.
* `Indexes.mem_scanPrefix`, `Indexes.pairwise_scanPrefix` — a scan finds the rows that match, in the
  order of the index's own columns.
-/

open OrderCode SortedList List SortedSet

namespace Mica

/-- The rows that share an index key, sorted. -/
abbrev TupleBucket := SortedSet Tuple

structure TupleIndex (M : Type → Type) where
  spec : TupleIndexSpec
  uniqueKeys : Bool
  entries : M TupleBucket

/-- **The index keeps every row**: it does not take repeated columns for a key of the whole row. -/
def TupleIndexSpec.Faithful (spec : TupleIndexSpec) (arity : ℕ) : Prop :=
  spec.positions.length = arity → spec.positions.Nodup

instance (spec : TupleIndexSpec) (arity : ℕ) : Decidable (spec.Faithful arity) :=
  inferInstanceAs (Decidable (_ → _))

namespace TupleIndex

variable {M : Type → Type} [ByteMap M]

/-! ## The operations -/

def empty (spec : TupleIndexSpec) (arity : ℕ) : TupleIndex M where
  spec := spec
  uniqueKeys := spec.positions.length == arity
  entries := ByteMap.empty

/-- `TupleBucket::one`. -/
def bucketOne (tuple : Tuple) : TupleBucket := SortedSet.empty.insert tuple

def insert (tuple : Tuple) (index : TupleIndex M) : TupleIndex M :=
  let key := tupleKey index.spec.positions tuple
  if index.uniqueKeys then
    { index with entries := ByteMap.insert key (bucketOne tuple) index.entries }
  else
    match ByteMap.get key index.entries with
    | none => { index with entries := ByteMap.insert key (bucketOne tuple) index.entries }
    | some bucket => { index with entries := ByteMap.insert key (bucket.insert tuple) index.entries }

def remove (tuple : Tuple) (index : TupleIndex M) : TupleIndex M :=
  let key := tupleKey index.spec.positions tuple
  if index.uniqueKeys then { index with entries := ByteMap.delete key index.entries }
  else
    match ByteMap.get key index.entries with
    | none => index
    | some bucket =>
      let bucket := bucket.erase tuple
      if bucket.list.isEmpty then { index with entries := ByteMap.delete key index.entries }
      else { index with entries := ByteMap.insert key bucket index.entries }

/-- The order in which rows are grouped: by key, then by row. -/
def KeyedLe (e f : Bytes × Tuple) : Prop :=
  compare e.1 f.1 = .lt ∨ compare e.1 f.1 = .eq ∧ e.2 ≤ f.2

instance : DecidableRel KeyedLe := fun e f =>
  inferInstanceAs (Decidable (compare e.1 f.1 = .lt ∨ compare e.1 f.1 = .eq ∧ e.2 ≤ f.2))

/-- Whether no key is above the next. -/
def keysOrdered : List (Bytes × Tuple) → Bool
  | e :: f :: es => compare e.1 f.1 != .gt && keysOrdered (f :: es)
  | _ => true

/-- Gather neighbours of equal key. -/
def groupKeyed : List (Bytes × Tuple) → List (Bytes × List Tuple)
  | [] => []
  | (k, t) :: es =>
    match groupKeyed es with
    | [] => [(k, [t])]
    | (l, ts) :: groups => if k = l then (k, t :: ts) :: groups else (k, [t]) :: (l, ts) :: groups

/-- `from_sorted_unique_rows`. -/
def fromSortedUniqueRows (spec : TupleIndexSpec) (arity : ℕ) (rows : SortedSet Tuple) :
    TupleIndex M :=
  let index : TupleIndex M := empty spec arity
  let keyedRows := rows.list.map fun t => (tupleKey spec.positions t, t)
  if index.uniqueKeys then
    { index with
      entries := ByteMap.insertAll (keyedRows.map fun e => (e.1, bucketOne e.2)) index.entries }
  else
    let keyedRows := if keysOrdered keyedRows then keyedRows else keyedRows.insertionSort KeyedLe
    { index with
      entries := ByteMap.insertAll
        ((groupKeyed keyedRows).map fun g => (g.1, SortedSet.ofList g.2)) index.entries }

/-- `prefix_covers_all_bindings`. -/
def prefixCoversAllBindings (index : TupleIndex M) (bindings : Bindings) (boundCount : ℕ) : Bool :=
  (List.range bindings.length).all fun p =>
    !bindings.isBound p || (index.spec.positions.take boundCount).contains p

/-- `binding_prefix_key`. -/
def bindingPrefixKey (index : TupleIndex M) (bindings : Bindings) (boundCount : ℕ) : Bytes :=
  keyFromValues ((index.spec.positions.take boundCount).filterMap fun p => bindings[p]?.join)

/-- `scan_prefix`: the buckets under the bound leading columns, tested against the other bindings if
there are any. -/
def scanPrefix (index : TupleIndex M) (bindings : Bindings) (boundCount : ℕ) : List Tuple :=
  let covers := index.prefixCoversAllBindings bindings boundCount
  (ByteMap.prefixValues (index.bindingPrefixKey bindings boundCount) index.entries).flatMap
    fun bucket => bucket.list.filter fun t => covers || t.matchesBindings bindings

/-- `tuple_for_key_values`. -/
def tupleForKeyValues (index : TupleIndex M) (values : Tuple) : Option Tuple :=
  (ByteMap.get (keyFromValues values) index.entries).bind fun bucket => bucket.list.head?

/-- `tuple_for_key_tuple`. -/
def tupleForKeyTuple (index : TupleIndex M) (tuple : Tuple) : Option Tuple :=
  (ByteMap.get (tupleKey index.spec.positions tuple) index.entries).bind fun bucket =>
    bucket.list.head?

/-! ## Keys -/

theorem tupleKey_eq_iff {positions : List ℕ} {t u : Tuple} :
    tupleKey positions t = tupleKey positions u ↔ t.select positions = u.select positions :=
  keyFromValues_injective.eq_iff

theorem select_congr {positions : List ℕ} {t u : Tuple} (ht : ∀ p ∈ positions, p < t.length)
    (hu : ∀ p ∈ positions, p < u.length) :
    t.select positions = u.select positions ↔ ∀ p ∈ positions, t[p]? = u[p]? := by
  constructor
  · intro h p hp
    obtain ⟨i, hi⟩ := mem_iff_getElem?.mp hp
    have hcol := congrArg (fun r : Tuple => r[i]?) h
    simpa only [Tuple.getElem?_select ht, Tuple.getElem?_select hu, hi, Option.bind_some] using hcol
  intro h
  refine ext_getElem? fun i => ?_
  rw [Tuple.getElem?_select ht, Tuple.getElem?_select hu]
  rcases hi : positions[i]? with _ | p
  · rfl
  exact h p (mem_iff_getElem?.mpr ⟨i, hi⟩)

/-- **All columns, each once, are a key of the whole row.** -/
theorem eq_of_tupleKey_eq {positions : List ℕ} {t u : Tuple} (hnodup : positions.Nodup)
    (hbound : ∀ p ∈ positions, p < positions.length) (ht : t.length = positions.length)
    (hu : u.length = positions.length) (h : tupleKey positions t = tupleKey positions u) :
    t = u := by
  have hall : ∀ p < positions.length, p ∈ positions := by
    intro p hp
    have hsub : positions ⊆ List.range positions.length := fun q hq =>
      mem_range.mpr (hbound q hq)
    have hperm : positions.Perm (List.range positions.length) :=
      (subperm_of_subset hnodup hsub).perm_of_length_le (length_range).le
    exact hperm.mem_iff.mpr (mem_range.mpr hp)
  have hcols := (select_congr (ht ▸ hbound) (hu ▸ hbound)).mp (tupleKey_eq_iff.mp h)
  refine ext_getElem? fun p => ?_
  by_cases hp : p < positions.length
  · exact hcols p (hall p hp)
  · rw [getElem?_eq_none (by omega), getElem?_eq_none (by omega)]

/-! ## What an index holds -/

/-- The rows under a key. -/
def bucket (index : TupleIndex M) (key : Bytes) : TupleBucket :=
  (ByteMap.get key index.entries).getD SortedSet.empty

/-- **The index holds a set of rows.** -/
structure Indexes (arity : ℕ) (rows : SortedSet Tuple) (index : TupleIndex M) : Prop where
  unique : index.uniqueKeys = (index.spec.positions.length == arity)
  mem_bucket : ∀ key t, t ∈ index.bucket key ↔ t ∈ rows ∧ tupleKey index.spec.positions t = key

/-- A well-formed index over rows of the given arity: its columns exist and it keeps every row. -/
structure Sound (arity : ℕ) (index : TupleIndex M) : Prop where
  bound : ∀ p ∈ index.spec.positions, p < arity
  faithful : index.spec.Faithful arity

theorem mem_bucketOne {t u : Tuple} : u ∈ bucketOne t ↔ u = t := by
  rw [bucketOne, mem_insert, or_iff_left (notMem_empty u)]

theorem bucket_insert_entries (index : TupleIndex M) (key key' : Bytes) (b : TupleBucket) :
    ({ index with entries := ByteMap.insert key b index.entries } : TupleIndex M).bucket key' =
      if key' = key then b else index.bucket key' := by
  unfold bucket
  split
  · next h => rw [h, ByteMap.get_insert_self, Option.getD_some]
  · next h => rw [ByteMap.get_insert_of_ne h]

theorem bucket_delete_entries (index : TupleIndex M) (key key' : Bytes) :
    ({ index with entries := ByteMap.delete key index.entries } : TupleIndex M).bucket key' =
      if key' = key then SortedSet.empty else index.bucket key' := by
  unfold bucket
  split
  · next h => rw [h, ByteMap.get_delete_self, Option.getD_none]
  · next h => rw [ByteMap.get_delete_of_ne h]

@[simp] theorem insert_spec (index : TupleIndex M) (t : Tuple) :
    (index.insert t).spec = index.spec := by
  unfold insert
  dsimp only
  split
  · rfl
  · split <;> rfl

@[simp] theorem insert_uniqueKeys (index : TupleIndex M) (t : Tuple) :
    (index.insert t).uniqueKeys = index.uniqueKeys := by
  unfold insert
  dsimp only
  split
  · rfl
  · split <;> rfl

@[simp] theorem remove_spec (index : TupleIndex M) (t : Tuple) :
    (index.remove t).spec = index.spec := by
  unfold remove
  dsimp only
  split
  · rfl
  · split
    · rfl
    · split <;> rfl

@[simp] theorem remove_uniqueKeys (index : TupleIndex M) (t : Tuple) :
    (index.remove t).uniqueKeys = index.uniqueKeys := by
  unfold remove
  dsimp only
  split
  · rfl
  · split
    · rfl
    · split <;> rfl

/-- What an insertion does to the buckets. -/
theorem bucket_insert (index : TupleIndex M) (t : Tuple) (key : Bytes) :
    (index.insert t).bucket key =
      if key = tupleKey index.spec.positions t then
        if index.uniqueKeys then bucketOne t else (index.bucket key).insert t
      else index.bucket key := by
  unfold insert
  dsimp only
  split
  · rw [bucket_insert_entries]
  split
  · next hget =>
    rw [bucket_insert_entries]
    split
    · next hkey =>
      have hempty : index.bucket key = SortedSet.empty := by rw [bucket, hkey, hget]; rfl
      rw [hempty, bucketOne]
    · rfl
  rename_i b hget
  rw [bucket_insert_entries]
  split
  · next hkey =>
    have hbucket : index.bucket key = b := by rw [bucket, hkey, hget]; rfl
    rw [hbucket]
  · rfl

/-- What a removal does to the buckets. -/
theorem bucket_remove (index : TupleIndex M) (t : Tuple) (key : Bytes) :
    (index.remove t).bucket key =
      if key = tupleKey index.spec.positions t then
        if index.uniqueKeys then SortedSet.empty else (index.bucket key).erase t
      else index.bucket key := by
  unfold remove
  dsimp only
  split
  · rw [bucket_delete_entries]
  split
  · next hget =>
    split
    · next hkey =>
      have hempty : index.bucket key = SortedSet.empty := by rw [bucket, hkey, hget]; rfl
      rw [hempty]
      rfl
    · rfl
  rename_i b hget
  split
  · next hnil =>
    rw [bucket_delete_entries]
    split
    · next hkey =>
      have hbucket : index.bucket key = b := by rw [bucket, hkey, hget]; rfl
      rw [hbucket]
      exact (SortedSet.ext (List.isEmpty_iff.mp hnil)).symm
    · rfl
  rw [bucket_insert_entries]
  split
  · next hkey =>
    have hbucket : index.bucket key = b := by rw [bucket, hkey, hget]; rfl
    rw [hbucket]
  · rfl

variable {arity : ℕ} {rows : SortedSet Tuple} {index : TupleIndex M}

theorem bucket_empty (spec : TupleIndexSpec) (key : Bytes) :
    (empty spec arity : TupleIndex M).bucket key = SortedSet.empty := by
  have hget : ByteMap.get key (ByteMap.empty : M TupleBucket) = none :=
    ByteMap.get_eq_none.mpr fun hmem => by
      rw [ByteMap.keys, ByteMap.entries_empty] at hmem
      cases hmem
  rw [bucket, empty, hget, Option.getD_none]

theorem indexes_empty (spec : TupleIndexSpec) :
    (empty spec arity : TupleIndex M).Indexes arity SortedSet.empty where
  unique := rfl
  mem_bucket key t := by
    rw [bucket_empty]
    exact ⟨fun h => absurd h (notMem_empty t),
      fun h => absurd h.1 (notMem_empty t)⟩

/-- In a sound index with unique keys the key is one of the whole row. -/
theorem Indexes.eq_of_key_eq (h : index.Indexes arity rows) (hs : index.Sound arity)
    (hu : index.uniqueKeys = true) {t u : Tuple} (ht : t.length = arity) (hu' : u.length = arity)
    (hkey : tupleKey index.spec.positions t = tupleKey index.spec.positions u) : t = u := by
  have hlen : index.spec.positions.length = arity := by
    rw [h.unique] at hu
    exact beq_iff_eq.mp hu
  exact eq_of_tupleKey_eq (hs.faithful hlen) (hlen ▸ hs.bound) (hlen ▸ ht) (hlen ▸ hu') hkey

theorem Indexes.insert (h : index.Indexes arity rows) (hs : index.Sound arity)
    (hrows : ∀ u ∈ rows, u.length = arity) {t : Tuple} (ht : t.length = arity) :
    (index.insert t).Indexes arity (rows.insert t) where
  unique := by rw [insert_uniqueKeys, insert_spec, h.unique]
  mem_bucket key u := by
    rw [bucket_insert, insert_spec, mem_insert]
    split
    · next hkey =>
      split
      · next hu =>
        rw [mem_bucketOne]
        constructor
        · rintro rfl
          exact ⟨.inl rfl, hkey.symm⟩
        · rintro ⟨rfl | hu', hk⟩
          · rfl
          · exact h.eq_of_key_eq hs hu (hrows u hu') ht (hk.trans hkey)
      rw [mem_insert, h.mem_bucket]
      constructor
      · rintro (rfl | hu)
        · exact ⟨.inl rfl, hkey.symm⟩
        · exact ⟨.inr hu.1, hu.2⟩
      · rintro ⟨hu | hu, hk⟩
        · exact .inl hu
        · exact .inr ⟨hu, hk⟩
    · next hkey =>
      rw [h.mem_bucket]
      refine and_congr_left fun hk => (or_iff_right ?_).symm
      rintro rfl
      exact hkey hk.symm

theorem Indexes.remove (h : index.Indexes arity rows) (hs : index.Sound arity)
    (hrows : ∀ u ∈ rows, u.length = arity) {t : Tuple} (ht : t.length = arity) :
    (index.remove t).Indexes arity (rows.erase t) where
  unique := by rw [remove_uniqueKeys, remove_spec, h.unique]
  mem_bucket key u := by
    rw [bucket_remove, remove_spec, mem_erase]
    split
    · next hkey =>
      split
      · next hu =>
        refine iff_of_false (notMem_empty u) fun ⟨⟨hne, hu'⟩, hk⟩ => hne ?_
        exact h.eq_of_key_eq hs hu (hrows u hu') ht (hk.trans hkey)
      · rw [mem_erase, h.mem_bucket, and_assoc]
    rename_i hkey
    rw [h.mem_bucket]
    refine and_congr_left fun hk => (and_iff_right ?_).symm
    rintro rfl
    exact hkey hk.symm

/-- **The index holds nothing but rows**, faithful or not. -/
def Within (rows : SortedSet Tuple) (index : TupleIndex M) : Prop :=
  ∀ key t, t ∈ index.bucket key → t ∈ rows ∧ tupleKey index.spec.positions t = key

theorem within_empty (spec : TupleIndexSpec) :
    (empty spec arity : TupleIndex M).Within SortedSet.empty := by
  intro key t ht
  rw [bucket_empty] at ht
  exact absurd ht (notMem_empty t)

theorem Within.insert (h : index.Within rows) (t : Tuple) :
    (index.insert t).Within (rows.insert t) := by
  intro key u hu
  rw [bucket_insert] at hu
  rw [insert_spec, mem_insert]
  split_ifs at hu with hkey hunique
  · obtain rfl := mem_bucketOne.mp hu
    exact ⟨.inl rfl, hkey.symm⟩
  · rcases mem_insert.mp hu with rfl | hu
    · exact ⟨.inl rfl, hkey.symm⟩
    · exact (h key u hu).imp_left .inr
  · exact (h key u hu).imp_left .inr

theorem Within.remove (h : index.Within rows) (t : Tuple) :
    (index.remove t).Within (rows.erase t) := by
  intro key u hu
  rw [bucket_remove] at hu
  rw [remove_spec, mem_erase]
  split_ifs at hu with hkey hunique
  · exact absurd hu (notMem_empty u)
  · obtain ⟨hne, hu⟩ := mem_erase.mp hu
    exact (h key u hu).imp_left fun hmem => ⟨hne, hmem⟩
  · obtain ⟨hmem, hk⟩ := h key u hu
    refine ⟨⟨?_, hmem⟩, hk⟩
    rintro rfl
    exact hkey hk.symm

/-! ## Building an index at once -/

theorem isLE_trans {e f g : Bytes × Tuple} (h : (compare e.1 f.1).isLE = true)
    (h' : (compare f.1 g.1).isLE = true) : (compare e.1 g.1).isLE = true :=
  Std.TransCmp.isLE_trans h h'

theorem pairwise_of_keysOrdered : ∀ {es : List (Bytes × Tuple)}, keysOrdered es = true →
    es.Pairwise fun e f => (compare e.1 f.1).isLE = true
  | [], _ => List.Pairwise.nil
  | [_], _ => pairwise_singleton _ _
  | e :: f :: es, h => by
    obtain ⟨hef, hes⟩ : compare e.1 f.1 ≠ .gt ∧ keysOrdered (f :: es) = true := by
      simpa [keysOrdered] using h
    have htail := pairwise_of_keysOrdered hes
    have hef : (compare e.1 f.1).isLE = true := by
      cases hc : compare e.1 f.1 with
      | lt | eq => rfl
      | gt => exact absurd hc hef
    refine pairwise_cons.mpr ⟨fun g hg => ?_, htail⟩
    rcases mem_cons.mp hg with rfl | hg
    · exact hef
    · exact isLE_trans hef ((pairwise_cons.mp htail).1 g hg)

theorem pairwise_insertionSort_keyedLe (es : List (Bytes × Tuple)) :
    (es.insertionSort KeyedLe).Pairwise fun e f => (compare e.1 f.1).isLE = true := by
  have htotal : Std.Total KeyedLe := ⟨fun e f => by
    cases hc : compare e.1 f.1 with
    | lt => exact .inl (.inl hc)
    | gt => exact .inr (.inl (Std.OrientedCmp.lt_of_gt hc))
    | eq =>
      refine (le_total e.2 f.2).imp (fun h => .inr ⟨hc, h⟩) fun h => .inr ⟨?_, h⟩
      exact Std.OrientedCmp.eq_symm hc⟩
  have htrans : IsTrans (Bytes × Tuple) KeyedLe := ⟨fun e f g => by
    rintro (hef | ⟨hef, hle⟩) (hfg | ⟨hfg, hle'⟩)
    · exact .inl (Std.TransCmp.lt_trans hef hfg)
    · exact .inl (Std.TransCmp.lt_of_lt_of_eq hef hfg)
    · exact .inl (Std.TransCmp.lt_of_eq_of_lt hef hfg)
    · exact .inr ⟨Std.TransCmp.eq_trans hef hfg, hle.trans hle'⟩⟩
  refine (pairwise_insertionSort KeyedLe es).imp fun h => ?_
  rcases h with h | h
  · rw [h]; rfl
  · rw [h.1]; rfl

/-- Grouping gathers exactly the entries. -/
theorem mem_groupKeyed {k : Bytes} {t : Tuple} : ∀ {l : List (Bytes × Tuple)},
    (k, t) ∈ l ↔ ∃ g ∈ groupKeyed l, g.1 = k ∧ t ∈ g.2
  | [] => by simp [groupKeyed]
  | (l, u) :: es => by
    have ih := mem_groupKeyed (k := k) (t := t) (l := es)
    rw [groupKeyed, mem_cons, ih, Prod.mk.injEq]
    split
    · next hnil => simp [hnil, eq_comm]
    rename_i l' ts groups hcons
    rw [hcons]
    split
    · next heq =>
      subst heq
      simp only [mem_cons, exists_eq_or_imp, @eq_comm _ k]
      tauto
    · simp [@eq_comm _ k]

/-- The keys of the groups are among the keys of the entries. -/
theorem head_groupKeyed {g : Bytes × List Tuple} {es : List (Bytes × Tuple)}
    (hg : g ∈ groupKeyed es) : ∃ e ∈ es, e.1 = g.1 := by
  induction es generalizing g with
  | nil => exact nomatch hg
  | cons e es ih =>
    obtain ⟨k, t⟩ := e
    rw [groupKeyed] at hg
    split at hg
    · obtain rfl := mem_singleton.mp hg
      exact ⟨(k, t), mem_cons_self, rfl⟩
    rename_i l ts groups hcons
    have htail : ∀ g ∈ (l, ts) :: groups, ∃ e ∈ (k, t) :: es, e.1 = g.1 := by
      intro g hg
      obtain ⟨e, he, hk⟩ := ih (hcons ▸ hg)
      exact ⟨e, mem_cons_of_mem _ he, hk⟩
    split at hg
    · rcases mem_cons.mp hg with rfl | hg
      · exact ⟨(k, t), mem_cons_self, rfl⟩
      · exact htail g (mem_cons_of_mem _ hg)
    · rcases mem_cons.mp hg with rfl | hg
      · exact ⟨(k, t), mem_cons_self, rfl⟩
      · exact htail g hg

/-- Entries sorted by key form one group for each key. -/
theorem pairwise_groupKeyed : ∀ {es : List (Bytes × Tuple)},
    (es.Pairwise fun e f => (compare e.1 f.1).isLE = true) →
      (groupKeyed es).Pairwise fun g h => compare g.1 h.1 = .lt
  | [], _ => List.Pairwise.nil
  | (k, t) :: es, h => by
    obtain ⟨hk, hes⟩ := pairwise_cons.mp h
    have ih := pairwise_groupKeyed hes
    rw [groupKeyed]
    split
    · exact pairwise_singleton _ _
    rename_i l ts groups hcons
    rw [hcons] at ih
    split
    · next heq =>
      subst heq
      exact pairwise_cons.mpr (pairwise_cons.mp ih)
    rename_i hne
    obtain ⟨e, he, hl⟩ := head_groupKeyed (hcons ▸ mem_cons_self : (l, ts) ∈ groupKeyed es)
    have hlt : compare k l = .lt := by
      have hle : (compare k e.1).isLE = true := hk e he
      rw [hl] at hle
      cases hc : compare k l with
      | lt => rfl
      | eq => exact absurd (Std.LawfulEqOrd.eq_of_compare hc) hne
      | gt => exact absurd hle (by rw [hc]; exact Bool.false_ne_true)
    refine pairwise_cons.mpr ⟨fun g hg => ?_, ih⟩
    rcases mem_cons.mp hg with rfl | hg
    · exact hlt
    · exact Std.TransCmp.lt_trans hlt ((pairwise_cons.mp ih).1 g hg)

/-- The buckets of an index filled with entries of different keys. -/
theorem mem_bucket_insertAll {es : List (Bytes × TupleBucket)} (hes : (es.map Prod.fst).Nodup)
    (spec : TupleIndexSpec) {key : Bytes} {t : Tuple} :
    t ∈ ({ (empty spec arity : TupleIndex M) with
        entries := ByteMap.insertAll es ByteMap.empty } : TupleIndex M).bucket key ↔
      ∃ b, (key, b) ∈ es ∧ t ∈ b := by
  have hget : ∀ b, ByteMap.get key (ByteMap.insertAll es ByteMap.empty : M TupleBucket) = some b ↔
      (key, b) ∈ es := by
    intro b
    rw [ByteMap.get_eq_some, ByteMap.mem_insertAll hes, ByteMap.entries_empty]
    exact or_iff_left fun h => absurd h.2 not_mem_nil
  unfold bucket
  dsimp only
  cases hb : ByteMap.get key (ByteMap.insertAll es ByteMap.empty : M TupleBucket) with
  | none =>
    refine iff_of_false (notMem_empty t) ?_
    rintro ⟨b, hmem, -⟩
    cases hb.symm.trans ((hget b).mpr hmem)
  | some b =>
    rw [Option.getD_some]
    refine ⟨fun ht => ⟨b, (hget b).mp hb, ht⟩, ?_⟩
    rintro ⟨b', hmem, ht⟩
    obtain rfl : b = b' := Option.some.inj (hb.symm.trans ((hget b').mpr hmem))
    exact ht

@[simp] theorem fromSortedUniqueRows_spec (spec : TupleIndexSpec) (rows : SortedSet Tuple) :
    (fromSortedUniqueRows spec arity rows : TupleIndex M).spec = spec := by
  unfold fromSortedUniqueRows
  dsimp only
  split <;> rfl

theorem indexes_fromSortedUniqueRows {spec : TupleIndexSpec}
    (hbound : ∀ p ∈ spec.positions, p < arity) (hfaithful : spec.Faithful arity)
    (hrows : ∀ u ∈ rows, u.length = arity) :
    (fromSortedUniqueRows spec arity rows : TupleIndex M).Indexes arity rows := by
  have hkeyed : ∀ {key : Bytes} {t : Tuple},
      (key, t) ∈ rows.list.map (fun t => (tupleKey spec.positions t, t)) ↔
        t ∈ rows ∧ tupleKey spec.positions t = key := by
    intro key t
    rw [mem_map]
    constructor
    · rintro ⟨u, hu, heq⟩
      obtain ⟨rfl, rfl⟩ := Prod.mk.inj heq
      exact ⟨hu, rfl⟩
    · rintro ⟨hu, rfl⟩
      exact ⟨t, hu, rfl⟩
  unfold fromSortedUniqueRows
  dsimp only
  split
  · next hunique =>
    refine ⟨rfl, fun key t => ?_⟩
    have hlen : spec.positions.length = arity := beq_iff_eq.mp hunique
    have hinj : ∀ t ∈ rows.list, ∀ u ∈ rows.list,
        tupleKey spec.positions t = tupleKey spec.positions u → t = u := fun t ht u hu =>
      eq_of_tupleKey_eq (hfaithful hlen) (hlen ▸ hbound) (hlen ▸ hrows t ht) (hlen ▸ hrows u hu)
    have hnodup : (((rows.list.map fun t => (tupleKey spec.positions t, t)).map
        fun e => (e.1, bucketOne e.2)).map Prod.fst).Nodup := by
      rw [map_map, map_map]
      exact List.Nodup.map_on hinj (rows.sorted.imp ne_of_lt)
    refine (mem_bucket_insertAll hnodup spec).trans (Iff.trans ?_ hkeyed)
    simp only [mem_map (f := fun e : Bytes × Tuple => (e.1, bucketOne e.2)), Prod.mk.injEq]
    constructor
    · rintro ⟨b, ⟨⟨k, u⟩, hmem, rfl, rfl⟩, ht⟩
      obtain rfl := mem_bucketOne.mp ht
      exact hmem
    · exact fun hmem => ⟨_, ⟨_, hmem, rfl, rfl⟩, mem_bucketOne.mpr rfl⟩
  · next hunique =>
    refine ⟨rfl, fun key t => ?_⟩
    generalize hes : (if keysOrdered (rows.list.map fun t => (tupleKey spec.positions t, t)) then
      rows.list.map fun t => (tupleKey spec.positions t, t)
      else (rows.list.map fun t => (tupleKey spec.positions t, t)).insertionSort KeyedLe) = es
    have hsorted : es.Pairwise fun e f => (compare e.1 f.1).isLE = true := by
      subst hes
      split
      · next hord => exact pairwise_of_keysOrdered hord
      · exact pairwise_insertionSort_keyedLe _
    have hmem : ∀ e, e ∈ es ↔ e ∈ rows.list.map fun t => (tupleKey spec.positions t, t) := by
      subst hes
      intro e
      split
      · rfl
      · exact mem_insertionSort _
    have hnodup : (((groupKeyed es).map fun g => (g.1, SortedSet.ofList g.2)).map
        Prod.fst).Nodup := by
      rw [map_map]
      exact pairwise_map.mpr ((pairwise_groupKeyed hsorted).imp Entries.ne_of_compare_lt)
    refine (mem_bucket_insertAll hnodup spec).trans (Iff.trans ?_ hkeyed)
    rw [← hmem, mem_groupKeyed]
    simp only [mem_map, Prod.mk.injEq]
    constructor
    · rintro ⟨b, ⟨g, hg, hk, rfl⟩, ht⟩
      exact ⟨g, hg, hk, mem_ofList.mp ht⟩
    · rintro ⟨g, hg, hk, ht⟩
      exact ⟨_, ⟨g, hg, hk, rfl⟩, mem_ofList.mpr ht⟩

theorem within_fromSortedUniqueRows (spec : TupleIndexSpec) (rows : SortedSet Tuple) :
    (fromSortedUniqueRows spec arity rows : TupleIndex M).Within rows := by
  intro key t ht
  rw [fromSortedUniqueRows_spec]
  have hentry : ∃ b, (key, b) ∈ ByteMap.entries
      (fromSortedUniqueRows spec arity rows : TupleIndex M).entries ∧ t ∈ b := by
    unfold bucket at ht
    cases hget : ByteMap.get key (fromSortedUniqueRows spec arity rows : TupleIndex M).entries with
    | none =>
      rw [hget] at ht
      exact absurd ht (notMem_empty t)
    | some b =>
      rw [hget] at ht
      exact ⟨b, ByteMap.get_eq_some.mp hget, ht⟩
  obtain ⟨b, hmem, htb⟩ := hentry
  have hnil : ∀ {e}, e ∉ ByteMap.entries (empty spec arity : TupleIndex M).entries := fun he => by
    rw [empty, ByteMap.entries_empty] at he
    exact not_mem_nil he
  suffices h : (key, t) ∈ rows.list.map fun t => (tupleKey spec.positions t, t) by
    obtain ⟨u, hu, heq⟩ := mem_map.mp h
    obtain ⟨rfl, rfl⟩ := Prod.mk.inj heq
    exact ⟨hu, rfl⟩
  unfold fromSortedUniqueRows at hmem
  dsimp only at hmem
  split at hmem
  · rcases ByteMap.of_mem_insertAll hmem with hmem | hmem
    · obtain ⟨e, he, heq⟩ := mem_map.mp hmem
      obtain ⟨rfl, rfl⟩ := Prod.mk.inj heq
      obtain rfl := mem_bucketOne.mp htb
      exact he
    · exact absurd hmem hnil
  rcases ByteMap.of_mem_insertAll hmem with hmem | hmem
  · obtain ⟨g, hg, heq⟩ := mem_map.mp hmem
    obtain ⟨rfl, rfl⟩ := Prod.mk.inj heq
    have he := mem_groupKeyed.mpr ⟨g, hg, rfl, mem_ofList.mp htb⟩
    split at he
    · exact he
    · exact (mem_insertionSort _).mp he
  · exact absurd hmem hnil

/-! ## Scanning an index -/

/-- Two partial columns agree on a prefix, column by column. -/
theorem filterMap_prefix_iff {f g : ℕ → Option Value} : ∀ {ps l : List ℕ},
    (∀ p ∈ ps, (f p).isSome = true) → (∀ p ∈ ps, (g p).isSome = true) →
      (ps.filterMap f <+: (ps ++ l).filterMap g ↔ ∀ p ∈ ps, f p = g p)
  | [], qs, _, _ => by simp
  | p :: ps, qs, hf, hg => by
    obtain ⟨hfp, hfps⟩ := forall_mem_cons.mp hf
    obtain ⟨hgp, hgps⟩ := forall_mem_cons.mp hg
    obtain ⟨a, ha⟩ := Option.isSome_iff_exists.mp hfp
    obtain ⟨b, hb⟩ := Option.isSome_iff_exists.mp hgp
    rw [cons_append, filterMap_cons_some ha, filterMap_cons_some hb,
      cons_prefix_cons, filterMap_prefix_iff hfps hgps, forall_mem_cons, ha, hb,
      Option.some.injEq]

variable {bindings : Bindings}

theorem isBound_of_mem_take {spec : TupleIndexSpec} {n p : ℕ}
    (hn : n ≤ spec.leadingBoundCount bindings) (hp : p ∈ spec.positions.take n) :
    bindings.isBound p = true := by
  have hprefix : spec.positions.takeWhile bindings.isBound <+: spec.positions :=
    takeWhile_prefix _
  have htake : spec.positions.take n <+: spec.positions.takeWhile bindings.isBound :=
    prefix_of_prefix_length_le (List.take_prefix _ _) hprefix
      ((length_take_le _ _).trans hn)
  exact mem_takeWhile_imp (htake.subset hp)

omit [ByteMap M] in
/-- **The keys under the bound prefix are those of the rows that match there.** -/
theorem bindingPrefixKey_prefix_iff {n : ℕ} {t : Tuple}
    (hn : n ≤ index.spec.leadingBoundCount bindings)
    (ht : ∀ p ∈ index.spec.positions, p < t.length) :
    index.bindingPrefixKey bindings n <+: tupleKey index.spec.positions t ↔
      ∀ p ∈ index.spec.positions.take n, bindings[p]?.join = t[p]? := by
  have hcol : ∀ p ∈ index.spec.positions.take n, (t[p]?).isSome = true := fun p hp => by
    rw [getElem?_eq_getElem (ht p (mem_of_mem_take hp))]
    rfl
  rw [bindingPrefixKey, tupleKey, isPrefix_keyFromValues_iff, Tuple.select]
  have hsplit := filterMap_prefix_iff (l := index.spec.positions.drop n)
    (fun p hp => isBound_of_mem_take hn hp) hcol
  rwa [take_append_drop] at hsplit

omit [ByteMap M] in
theorem matchesBindings_of_covers {n : ℕ} {t : Tuple}
    (hcovers : index.prefixCoversAllBindings bindings n = true)
    (h : ∀ p ∈ index.spec.positions.take n, bindings[p]?.join = t[p]?) :
    t.matchesBindings bindings = true := by
  refine Tuple.matchesBindings_iff.mpr fun p w hp => ?_
  have hlt : p < bindings.length := (List.getElem?_eq_some_iff.mp hp).1
  have hbound : bindings.isBound p = true := by rw [Bindings.isBound, hp]; rfl
  have hmem := all_eq_true.mp hcovers p (mem_range.mpr hlt)
  rw [hbound, Bool.not_true, Bool.false_or, contains_iff_mem] at hmem
  rw [← h p hmem, hp, Option.join_some]

theorem mem_entries_bucket {key : Bytes} {b : TupleBucket}
    (h : (key, b) ∈ ByteMap.entries index.entries) : index.bucket key = b := by
  rw [bucket, ByteMap.get_eq_some.mpr h, Option.getD_some]

/-- What a scan finds, in terms of the buckets. -/
theorem mem_scanPrefix_iff_bucket {n : ℕ} {t : Tuple} :
    t ∈ index.scanPrefix bindings n ↔
      ∃ key, index.bindingPrefixKey bindings n <+: key ∧ t ∈ index.bucket key ∧
        (index.prefixCoversAllBindings bindings n || t.matchesBindings bindings) = true := by
  unfold scanPrefix
  simp only [mem_flatMap, ByteMap.mem_prefixValues, mem_filter]
  constructor
  · rintro ⟨b, ⟨key, hp, hmem⟩, ht, hok⟩
    exact ⟨key, hp, (mem_entries_bucket hmem).symm ▸ ht, hok⟩
  rintro ⟨key, hp, ht, hok⟩
  rcases hget : ByteMap.get key index.entries with _ | b
  · rw [bucket, hget] at ht
    exact absurd ht (notMem_empty t)
  have hmem := ByteMap.get_eq_some.mp hget
  exact ⟨b, ⟨key, hp, hmem⟩, mem_entries_bucket hmem ▸ ht, hok⟩

/-- **A scan finds nothing but rows that match.** -/
theorem Within.of_mem_scanPrefix (h : index.Within rows)
    (hbound : ∀ p ∈ index.spec.positions, p < arity) (hrows : ∀ u ∈ rows, u.length = arity)
     {t : Tuple} (ht : t ∈ index.scanPrefix bindings (index.spec.leadingBoundCount bindings)) :
    t ∈ rows ∧ t.matchesBindings bindings = true := by
  obtain ⟨key, hp, ht, hok⟩ := mem_scanPrefix_iff_bucket.mp ht
  obtain ⟨hmem, rfl⟩ := h key t ht
  refine ⟨hmem, ?_⟩
  rcases Bool.or_eq_true_iff.mp hok with hcovers | hok
  · exact matchesBindings_of_covers hcovers
      ((bindingPrefixKey_prefix_iff le_rfl ((hrows t hmem).symm ▸ hbound)).mp hp)
  · exact hok

theorem Indexes.within (h : index.Indexes arity rows) : index.Within rows :=
  fun key t => (h.mem_bucket key t).mp

/-- **A scan of an index that holds the rows finds the rows that match.** -/
theorem Indexes.mem_scanPrefix (h : index.Indexes arity rows)
    (hbound : ∀ p ∈ index.spec.positions, p < arity) (hrows : ∀ u ∈ rows, u.length = arity)
     {t : Tuple} :
    t ∈ index.scanPrefix bindings (index.spec.leadingBoundCount bindings) ↔
      t ∈ rows ∧ t.matchesBindings bindings = true := by
  refine ⟨h.within.of_mem_scanPrefix hbound hrows, ?_⟩
  rintro ⟨hmem, hok⟩
  refine mem_scanPrefix_iff_bucket.mpr ⟨tupleKey index.spec.positions t, ?_,
    (h.mem_bucket _ t).mpr ⟨hmem, rfl⟩, Bool.or_eq_true_iff.mpr (.inr hok)⟩
  refine (bindingPrefixKey_prefix_iff le_rfl ((hrows t hmem).symm ▸ hbound)).mpr fun p hp => ?_
  obtain ⟨w, hw⟩ := Option.isSome_iff_exists.mp (isBound_of_mem_take le_rfl hp)
  rw [hw, Tuple.matchesBindings_iff.mp hok p w (Option.join_eq_some_iff.mp hw)]

/-- The order of an index: by its own columns, then by row. -/
def Before (positions : List ℕ) (t u : Tuple) : Prop :=
  t.select positions < u.select positions ∨ t.select positions = u.select positions ∧ t < u

/-- **A scan comes in the order of the index.** -/
theorem Indexes.pairwise_scanPrefix (h : index.Indexes arity rows) (bindings : Bindings) (n : ℕ) :
    (index.scanPrefix bindings n).Pairwise (Before index.spec.positions) := by
  unfold scanPrefix
  have hkey : ∀ e ∈ ByteMap.entries index.entries, ∀ t ∈ e.2.list,
      tupleKey index.spec.positions t = e.1 := fun e he t ht =>
    ((h.mem_bucket e.1 t).mp ((mem_entries_bucket he).symm ▸ ht)).2
  rw [ByteMap.prefixValues_eq, flatMap_map]
  refine pairwise_flatMap.mpr ⟨fun e he => ?_, ?_⟩
  · have he := mem_of_mem_filter he
    refine List.Pairwise.filter _ (e.2.sorted.imp_of_mem fun ht hu hlt => .inr ⟨?_, hlt⟩)
    exact tupleKey_eq_iff.mp ((hkey e he _ ht).trans (hkey e he _ hu).symm)
  refine ((ByteMap.sorted index.entries).filter _).imp_of_mem fun he hf hlt t ht u hu => ?_
  refine .inl (keyFromValues_lt_iff.mp ?_)
  have hte := hkey _ (mem_of_mem_filter he) t (mem_of_mem_filter ht)
  have huf := hkey _ (mem_of_mem_filter hf) u (mem_of_mem_filter hu)
  rw [tupleKey] at hte huf
  rwa [hte, huf]

end TupleIndex

end Mica
