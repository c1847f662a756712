import Mica.Kernel.RelationState

/-!
# Kernel/Overlay — the writes of a transaction to one relation

The last change to each tuple, sorted by tuple: a sorted list while there are few and a radix tree
under the encoded tuple from then on.  Reads keep auxiliary indexes of the changes by the columns
they have asked for more than once; for functional relations a second map tracks the tuple visible
at each touched key.

* `RelationWriteOverlay.entries_insert` — a write replaces the earlier change of the same tuple.
* `RelationWriteOverlay.Indexed` — every auxiliary index lists the changes of its key, in order; kept
  by writes and reads.
* `RelationWriteOverlay.visitMatches_filter` — a read sees every change that matches, in order.
-/

open OrderCode SortedList List SortedMap

namespace Mica

/-- `LocalChange`. -/
abbrev LocalChange := FactChangeKind

/-- `LOCAL_RADIX_OVERLAY_THRESHOLD`. -/
def localRadixOverlayThreshold : ℕ := 64

/-! ## The changes -/

inductive OverlayChanges (M : Type → Type) [ByteMap M] where
  | small (changes : SortedMap Tuple LocalChange)
  | radix (changes : M (Tuple × LocalChange))
      (keyed : ∀ e ∈ ByteMap.entries changes, e.1 = keyFromValues e.2.1)

namespace OverlayChanges

variable {M : Type → Type} [ByteMap M]

theorem pairwise_values {changes : M (Tuple × LocalChange)}
    (keyed : ∀ e ∈ ByteMap.entries changes, e.1 = keyFromValues e.2.1) :
    (ByteMap.values changes).Pairwise fun e f => e.1 < f.1 := by
  refine pairwise_map.mpr ((ByteMap.sorted changes).imp_of_mem fun he hf hlt => ?_)
  rwa [keyed _ he, keyed _ hf, keyFromValues_lt_iff] at hlt

/-- The changes in tuple order: what `for_each` visits. -/
def entries : OverlayChanges M → SortedMap Tuple LocalChange
  | small changes => changes
  | radix changes keyed => ⟨ByteMap.values changes, pairwise_values keyed⟩

theorem keyed_insert {changes : M (Tuple × LocalChange)} {tuple : Tuple} {change : LocalChange}
    (keyed : ∀ e ∈ ByteMap.entries changes, e.1 = keyFromValues e.2.1) :
    ∀ e ∈ ByteMap.entries (ByteMap.insert (keyFromValues tuple) (tuple, change) changes),
      e.1 = keyFromValues e.2.1 := by
  intro e he
  rcases ByteMap.mem_insert.mp he with rfl | he
  · rfl
  · exact keyed e he.2

/-- A radix tree over the given changes. -/
def radixOf (changes : List (Tuple × LocalChange)) : M (Tuple × LocalChange) :=
  ByteMap.insertAll (changes.map fun e => (keyFromValues e.1, e)) ByteMap.empty

theorem mem_radixOf {changes : List (Tuple × LocalChange)} (h : (changes.map Prod.fst).Nodup)
    {e : Bytes × Tuple × LocalChange} :
    e ∈ ByteMap.entries (radixOf changes : M (Tuple × LocalChange)) ↔
      e.1 = keyFromValues e.2.1 ∧ e.2 ∈ changes := by
  have hkeys : ((changes.map fun e => (keyFromValues e.1, e)).map Prod.fst).Nodup := by
    have hmap : (changes.map fun e => (keyFromValues e.1, e)).map Prod.fst =
        (changes.map Prod.fst).map keyFromValues := by
      rw [map_map, map_map]
      rfl
    rw [hmap]
    exact h.map keyFromValues_injective
  rw [radixOf, ByteMap.mem_insertAll hkeys, ByteMap.entries_empty, mem_map]
  constructor
  · rintro (⟨t, ht, rfl⟩ | ⟨-, he⟩)
    · exact ⟨rfl, ht⟩
    · cases he
  · rintro ⟨hk, ht⟩
    exact .inl ⟨e.2, ht, Prod.ext hk.symm rfl⟩

/-- `insert`. -/
def insert (tuple : Tuple) (change : LocalChange) : OverlayChanges M → OverlayChanges M
  | small changes =>
    let changes := changes.insert tuple change
    if localRadixOverlayThreshold < changes.list.length then
      radix (radixOf changes.list)
        fun _ he => ((mem_radixOf (changes.pairwise_keys.imp ne_of_lt)).mp he).1
    else small changes
  | radix changes keyed =>
    radix (ByteMap.insert (keyFromValues tuple) (tuple, change) changes) (keyed_insert keyed)

theorem get?_entries_radix {changes : M (Tuple × LocalChange)}
    {keyed : ∀ e ∈ ByteMap.entries changes, e.1 = keyFromValues e.2.1} {t : Tuple}
    {c : LocalChange} :
    (radix changes keyed).entries.get? t = some c ↔
      (keyFromValues t, (t, c)) ∈ ByteMap.entries changes := by
  rw [get?_eq_some]
  show (t, c) ∈ ByteMap.values changes ↔ _
  rw [ByteMap.values, mem_map]
  constructor
  · rintro ⟨⟨k, e⟩, hmem, rfl⟩
    exact keyed _ hmem ▸ hmem
  · exact fun hmem => ⟨_, hmem, rfl⟩

/-- **A write replaces the earlier change of the same tuple.** -/
theorem entries_insert (changes : OverlayChanges M) (t : Tuple) (c : LocalChange) :
    (changes.insert t c).entries = changes.entries.insert t c := by
  cases changes with
  | small changes =>
    unfold insert
    dsimp only
    split
    · refine ext_get? fun u => Option.ext fun d => ?_
      have hnodup : ((changes.insert t c).list.map Prod.fst).Nodup :=
        (changes.insert t c).pairwise_keys.imp ne_of_lt
      rw [get?_entries_radix, mem_radixOf hnodup, and_iff_right rfl]
      exact get?_eq_some.symm
    · rfl
  | radix changes keyed =>
    refine ext_get? fun u => Option.ext fun d => ?_
    rw [insert, get?_entries_radix, ByteMap.mem_insert, get?_insert]
    split
    · next h =>
      subst h
      rw [Option.some.injEq, Prod.mk.injEq, Prod.mk.injEq]
      exact ⟨fun h => (h.resolve_right fun h => h.1 rfl).2.2.symm, fun h => .inl ⟨rfl, rfl, h.symm⟩⟩
    · next h =>
      rw [get?_entries_radix, Prod.mk.injEq, Prod.mk.injEq]
      have hkey : keyFromValues u ≠ keyFromValues t := fun hk => h (keyFromValues_injective hk)
      exact ⟨fun h' => (h'.resolve_left fun h' => h h'.2.1).2, fun h' => .inr ⟨hkey, h'⟩⟩

end OverlayChanges

/-! ## The overlay -/

/-- The writes of a transaction to one relation, with the indexes its reads have built. -/
structure RelationWriteOverlay (M : Type → Type) [ByteMap M] where
  changes : OverlayChanges M
  scanIndexes : List ℕ → Option (M (List (Tuple × LocalChange)))
  scanRequests : List ℕ → ℕ

/-- `LocalScanIndex::record_change`. -/
def recordScanChange {M : Type → Type} [ByteMap M] (positions : List ℕ) (tuple : Tuple)
    (change : LocalChange) (rows : M (List (Tuple × LocalChange))) :
    M (List (Tuple × LocalChange)) :=
  let key := tupleKey positions tuple
  match ByteMap.get key rows with
  | none => ByteMap.insert key [(tuple, change)] rows
  | some bucket => ByteMap.insert key (insertEntry tuple change bucket) rows

/-- The index that `ensure_scan_index` builds: each change is pushed to the rows of its key. -/
def scanIndexOf {M : Type → Type} [ByteMap M] (positions : List ℕ)
    (changes : List (Tuple × LocalChange)) : M (List (Tuple × LocalChange)) :=
  changes.foldl (fun rows e =>
    let key := tupleKey positions e.1
    ByteMap.insert key ((ByteMap.get key rows).getD [] ++ [e]) rows) ByteMap.empty

/-- `best_local_prefix_positions`. -/
def bestLocalPrefixPositions (metadata : RelationMetadata) (bindings : Bindings) :
    Option (List ℕ) :=
  (lastMaxBy (fun spec => spec.leadingBoundCount bindings)
    (metadata.indexes.filter fun spec => decide (0 < spec.leadingBoundCount bindings))).map
      fun spec => spec.positions.take (spec.leadingBoundCount bindings)

namespace RelationWriteOverlay

variable {M : Type → Type} [ByteMap M]

def default : RelationWriteOverlay M := ⟨.small SortedMap.empty, fun _ => none, fun _ => 0⟩

/-- The changes in tuple order. -/
def entries (overlay : RelationWriteOverlay M) : SortedMap Tuple LocalChange :=
  overlay.changes.entries

/-- `insert`: the auxiliary indexes see the change too. -/
def insert (tuple : Tuple) (change : LocalChange) (overlay : RelationWriteOverlay M) :
    RelationWriteOverlay M :=
  { overlay with
    changes := overlay.changes.insert tuple change
    scanIndexes := fun positions =>
      (overlay.scanIndexes positions).map (recordScanChange positions tuple change) }

/-- `visit_matches`: the changes to test against the bindings, all of them or those of one key, and
the overlay with the index that a second request builds. -/
def visitMatches (metadata : RelationMetadata) (bindings : Bindings)
    (overlay : RelationWriteOverlay M) : RelationWriteOverlay M × List (Tuple × LocalChange) :=
  match bestLocalPrefixPositions metadata bindings with
  | none => (overlay, overlay.entries.list)
  | some positions =>
    let key := keyFromValues (positions.filterMap fun p => bindings[p]?.join)
    match overlay.scanIndexes positions with
    | some index => (overlay, (ByteMap.get key index).getD [])
    | none =>
      let requests := overlay.scanRequests positions + 1
      let overlay := { overlay with
        scanRequests := Function.update overlay.scanRequests positions requests }
      if requests = 1 then (overlay, overlay.entries.list)
      else
        let index : M (List (Tuple × LocalChange)) := scanIndexOf positions overlay.entries.list
        ({ overlay with
            scanIndexes := Function.update overlay.scanIndexes positions (some index) },
          (ByteMap.get key index).getD [])

/-- `for_each` over the keys of the changes: the touched keys in order, each with the last tuple of
the key. -/
def touchedProjectedKeys (positions : List ℕ) (overlay : RelationWriteOverlay M) :
    SortedMap Tuple Tuple :=
  overlay.entries.list.foldl (fun keys e => keys.insert (e.1.select positions) e.1) SortedMap.empty

/-- `apply_ordered_changes`, with the changes that took effect: in bulk when nothing was there and
nothing is retracted. -/
def applyOrderedChanges (overlay : RelationWriteOverlay M) (relation base : RelationState M) :
    RelationState M × List (Tuple × FactChangeKind) :=
  let changes := overlay.entries.list
  if base.tuples.isEmpty ∧ relation.tuples.isEmpty ∧ changes.all fun e => e.2 = .assert then
    relation.applyOrderedAssertsToEmpty (changes.map Prod.fst)
  else relation.applyOrderedChanges base.containsTuple changes

/-! ## What the auxiliary indexes hold -/

theorem entries_insert (overlay : RelationWriteOverlay M) (t : Tuple) (c : LocalChange) :
    (overlay.insert t c).entries = overlay.entries.insert t c :=
  overlay.changes.entries_insert t c

/-- An auxiliary index lists the changes of each key, in order. -/
def IndexesChanges (positions : List ℕ) (changes : List (Tuple × LocalChange))
    (index : M (List (Tuple × LocalChange))) : Prop :=
  ∀ key, (ByteMap.get key index).getD [] =
    changes.filter fun e => decide (tupleKey positions e.1 = key)

/-- **Every auxiliary index of the overlay is up to date.** -/
def Indexed (overlay : RelationWriteOverlay M) : Prop :=
  ∀ positions index, overlay.scanIndexes positions = some index →
    IndexesChanges positions overlay.entries.list index

theorem get_recordScanChange (positions : List ℕ) (t : Tuple) (c : LocalChange)
    (index : M (List (Tuple × LocalChange))) (key : Bytes) :
    (ByteMap.get key (recordScanChange positions t c index)).getD [] =
      if tupleKey positions t = key then insertEntry t c ((ByteMap.get key index).getD [])
      else (ByteMap.get key index).getD [] := by
  unfold recordScanChange
  dsimp only
  split
  · next hget =>
    split
    · next h => rw [← h, ByteMap.get_insert_self, hget]; rfl
    · next h => rw [ByteMap.get_insert_of_ne (Ne.symm h)]
  · next bucket hget =>
    split
    · next h => rw [← h, ByteMap.get_insert_self, hget]; rfl
    · next h => rw [ByteMap.get_insert_of_ne (Ne.symm h)]

theorem indexesChanges_scanIndexOf (positions : List ℕ) (changes : List (Tuple × LocalChange)) :
    IndexesChanges positions changes (scanIndexOf positions changes : M _) := by
  have hpush : ∀ (seen rest : List (Tuple × LocalChange)) (rows : M (List (Tuple × LocalChange))),
      IndexesChanges positions seen rows →
        IndexesChanges positions (seen ++ rest) (rest.foldl (fun rows e =>
          let key := tupleKey positions e.1
          ByteMap.insert key ((ByteMap.get key rows).getD [] ++ [e]) rows) rows) := by
    intro seen rest
    induction rest generalizing seen with
    | nil =>
      intro rows h
      rwa [append_nil]
    | cons e rest ih =>
      intro rows h
      rw [foldl_cons, append_cons]
      refine ih _ _ fun key => ?_
      dsimp only
      rw [filter_append, ← h key]
      by_cases hk : tupleKey positions e.1 = key
      · rw [← hk, ByteMap.get_insert_self, filter_cons_of_pos (by simp)]
        rfl
      · rw [ByteMap.get_insert_of_ne (Ne.symm hk), filter_cons_of_neg (by simpa using hk),
          filter_nil, append_nil]
  refine hpush [] changes ByteMap.empty fun key => ?_
  have hnone : ByteMap.get key (ByteMap.empty : M (List (Tuple × LocalChange))) = none :=
    ByteMap.get_eq_none.mpr fun hmem => by
      rw [ByteMap.keys, ByteMap.entries_empty] at hmem
      cases hmem
  rw [hnone]
  rfl

variable {overlay : RelationWriteOverlay M}

theorem indexed_default : (default : RelationWriteOverlay M).Indexed := nofun

theorem Indexed.insert (h : overlay.Indexed) (t : Tuple) (c : LocalChange) :
    (overlay.insert t c).Indexed := by
  intro positions index hindex key
  obtain ⟨old, hold, rfl⟩ := Option.map_eq_some_iff.mp hindex
  have hlist : (overlay.insert t c).entries.list = insertEntry t c overlay.entries.list :=
    congrArg SortedMap.list (overlay.entries_insert t c)
  rw [get_recordScanChange, hlist, h positions old hold key,
    filter_insertEntry (fun u => decide (tupleKey positions u = key)) overlay.entries.sorted]
  simp only [decide_eq_true_eq]

/-- A read keeps the changes and the indexes up to date. -/
theorem visitMatches_fst (h : overlay.Indexed) (metadata : RelationMetadata)
    (bindings : Bindings) :
    (overlay.visitMatches metadata bindings).1.entries = overlay.entries ∧
      (overlay.visitMatches metadata bindings).1.Indexed := by
  unfold visitMatches
  split
  · exact ⟨rfl, h⟩
  rename_i positions _
  dsimp only
  split
  · exact ⟨rfl, h⟩
  split
  · exact ⟨rfl, h⟩
  refine ⟨rfl, fun positions' index hindex => ?_⟩
  by_cases hp : positions' = positions
  · subst hp
    simp only [Function.update_self, Option.some.injEq] at hindex
    subst hindex
    exact indexesChanges_scanIndexOf _ _
  · simp only [Function.update_of_ne hp] at hindex
    exact h positions' index hindex

/-- A row that matches has the bound values as its key. -/
theorem tupleKey_of_matchesBindings {positions : List ℕ} {bindings : Bindings} {t : Tuple}
    (hbound : ∀ p ∈ positions, bindings.isBound p = true)
    (ht : t.matchesBindings bindings = true) :
    tupleKey positions t = keyFromValues (positions.filterMap fun p => bindings[p]?.join) := by
  rw [tupleKey, Tuple.select]
  refine congrArg keyFromValues (filterMap_congr fun p hp => ?_)
  obtain ⟨w, hw⟩ := Option.isSome_iff_exists.mp (hbound p hp)
  rw [hw, Tuple.matchesBindings_iff.mp ht p w (Option.join_eq_some_iff.mp hw)]

theorem isBound_of_bestLocalPrefixPositions {metadata : RelationMetadata} {bindings : Bindings}
    {positions : List ℕ} (h : bestLocalPrefixPositions metadata bindings = some positions) :
    ∀ p ∈ positions, bindings.isBound p = true := by
  obtain ⟨spec, -, rfl⟩ := Option.map_eq_some_iff.mp h
  exact fun p hp => TupleIndex.isBound_of_mem_take le_rfl hp

/-- **A read sees every change that matches, in order.** -/
theorem visitMatches_filter (h : overlay.Indexed) (metadata : RelationMetadata)
    (bindings : Bindings) :
    (overlay.visitMatches metadata bindings).2.filter (fun e => e.1.matchesBindings bindings) =
      overlay.entries.list.filter fun e => e.1.matchesBindings bindings := by
  have hkey : ∀ {positions : List ℕ} {index : M (List (Tuple × LocalChange))},
      bestLocalPrefixPositions metadata bindings = some positions →
      IndexesChanges positions overlay.entries.list index →
        ((ByteMap.get (keyFromValues (positions.filterMap fun p => bindings[p]?.join)) index).getD
          []).filter (fun e => e.1.matchesBindings bindings) =
        overlay.entries.list.filter fun e => e.1.matchesBindings bindings := by
    intro positions index hbest hindex
    rw [hindex, filter_filter]
    refine filter_congr fun e _ => ?_
    rw [Bool.eq_iff_iff, Bool.and_eq_true, decide_eq_true_eq]
    exact ⟨And.left, fun he =>
      ⟨he, tupleKey_of_matchesBindings (isBound_of_bestLocalPrefixPositions hbest) he⟩⟩
  unfold visitMatches
  split
  · rfl
  rename_i positions hbest
  dsimp only
  split
  · next index hindex => exact hkey hbest (h positions index hindex)
  · split
    · rfl
    · exact hkey hbest (indexesChanges_scanIndexOf _ _)

end RelationWriteOverlay

/-! ## The tuple visible at each touched key -/

/-- `FunctionalVisibleEntry`. -/
structure FunctionalVisibleEntry where
  representative : Tuple
  tuple : Option Tuple

structure FunctionalVisibleMap (M : Type → Type) where
  positions : List ℕ
  tuples : M FunctionalVisibleEntry

/-- `visible_after_change`. -/
def visibleAfterChange (current : Option Tuple) (tuple : Tuple) : LocalChange → Option Tuple
  | .assert => some tuple
  | .retract => if current = some tuple then none else current

namespace FunctionalVisibleMap

variable {M : Type → Type} [ByteMap M]

def new (positions : List ℕ) : FunctionalVisibleMap M := ⟨positions, ByteMap.empty⟩

/-- `record_change`: a key seen for the first time starts from the base tuple. -/
def recordChange (tuple : Tuple) (change : LocalChange) (baseCurrent : Option Tuple)
    (visible : FunctionalVisibleMap M) : FunctionalVisibleMap M :=
  let key := tupleKey visible.positions tuple
  let entry : FunctionalVisibleEntry :=
    match ByteMap.get key visible.tuples with
    | none => ⟨tuple, visibleAfterChange baseCurrent tuple change⟩
    | some entry => { entry with tuple := visibleAfterChange entry.tuple tuple change }
  { visible with tuples := ByteMap.insert key entry visible.tuples }

/-- `from_writes`. -/
def fromWrites (positions : List ℕ) (writes : List (Tuple × LocalChange))
    (baseTupleForKey : Tuple → Option Tuple) : FunctionalVisibleMap M :=
  writes.foldl (fun visible e => visible.recordChange e.1 e.2 (baseTupleForKey e.1)) (new positions)

/-- `tracked_tuple`. -/
def trackedTuple (tuple : Tuple) (visible : FunctionalVisibleMap M) : Option (Option Tuple) :=
  (ByteMap.get (tupleKey visible.positions tuple) visible.tuples).map FunctionalVisibleEntry.tuple

/-- `record_change_with_base_lookup`. -/
def recordChangeWithBaseLookup (tuple : Tuple) (change : LocalChange)
    (baseTupleForKey : List ℕ → Option Tuple) (visible : FunctionalVisibleMap M) :
    FunctionalVisibleMap M :=
  let baseCurrent :=
    match change with
    | .assert => none
    | .retract =>
      if (ByteMap.get (tupleKey visible.positions tuple) visible.tuples).isSome then none
      else baseTupleForKey visible.positions
  visible.recordChange tuple change baseCurrent

/-- `conflict_entries`. -/
def conflictEntries (visible : FunctionalVisibleMap M) : List FunctionalVisibleEntry :=
  ByteMap.values visible.tuples

end FunctionalVisibleMap

end Mica
