import Mica.Kernel.TupleIndex

/-!
# Kernel/RelationState — one relation with its rows and indexes

A state holds the rows once in its tuple store and once more in each secondary index; a scan is
served by whichever of them has the longest run of bound leading columns.  `RelationState.Valid` is
what every operation keeps: the rows have the relation's arity and each faithful index holds them.

* `scan_of_scanIndex_eq_none` — without an index a scan is the filtered set of rows, in order.
* `scan_of_scanIndex_eq_some` — with one it is the scan of that index.
-/

open OrderCode SortedList List

namespace Mica

structure RelationState (M : Type → Type) [ByteMap M] where
  metadata : RelationMetadata
  tuples : TupleStore M
  indexes : List (TupleIndex M)

/-- The last of the elements that make `f` largest: `Iterator::max_by_key`. -/
def lastMaxBy {α : Type} (f : α → ℕ) : List α → Option α
  | [] => none
  | a :: l =>
    match lastMaxBy f l with
    | none => some a
    | some b => if f b < f a then some a else some b

theorem lastMaxBy_map {α β : Type} (g : α → β) (f : β → ℕ) :
    ∀ l : List α, lastMaxBy f (l.map g) = (lastMaxBy (f ∘ g) l).map g
  | [] => rfl
  | a :: l => by
    rw [map_cons, lastMaxBy, lastMaxBy, lastMaxBy_map g f l]
    cases lastMaxBy (f ∘ g) l with
    | none => rfl
    | some b =>
      dsimp only [Option.map_some, Function.comp_apply]
      split <;> rfl

theorem mem_of_lastMaxBy {α : Type} {f : α → ℕ} {a : α} : ∀ {l : List α},
    lastMaxBy f l = some a → a ∈ l
  | b :: l, h => by
    rw [lastMaxBy] at h
    split at h
    · exact Option.some.inj h ▸ mem_cons_self
    · next c hc =>
      split at h
      · exact Option.some.inj h ▸ mem_cons_self
      · exact mem_cons_of_mem _ (mem_of_lastMaxBy (h ▸ hc))

/-- `is_natural_full_tuple_positions`: the columns in order. -/
def isNaturalFullTuplePositions (positions : List ℕ) (arity : ℕ) : Bool :=
  positions == List.range arity

/-- The indexes of a relation that are not just its rows in order. -/
def RelationMetadata.secondaryIndexes (metadata : RelationMetadata) : List TupleIndexSpec :=
  metadata.indexes.filter fun spec => !isNaturalFullTuplePositions spec.positions metadata.arity

/-- `full_tuple_binding_values`: the values, if every column is bound. -/
def fullTupleBindingValues : Bindings → Option Tuple
  | [] => some []
  | none :: _ => none
  | some v :: bindings => (fullTupleBindingValues bindings).map (v :: ·)

theorem fullTupleBindingValues_eq_some : ∀ {bindings : Bindings} {values : Tuple},
    fullTupleBindingValues bindings = some values ↔ bindings = values.map some
  | [], values => by
    rw [fullTupleBindingValues, Option.some.injEq]
    constructor
    · rintro rfl
      rfl
    · exact fun h => (map_eq_nil_iff.mp h.symm).symm
  | none :: bindings, values => by
    refine iff_of_false (nofun) fun h => ?_
    cases values with
    | nil => exact nomatch h
    | cons v values => exact nomatch (List.cons.inj h).1
  | some v :: bindings, values => by
    rw [fullTupleBindingValues, Option.map_eq_some_iff]
    constructor
    · rintro ⟨rest, hrest, rfl⟩
      rw [fullTupleBindingValues_eq_some.mp hrest, map_cons]
    intro h
    cases values with
    | nil => exact nomatch h
    | cons w values =>
      obtain ⟨hv, hrest⟩ := List.cons.inj h
      exact ⟨values, fullTupleBindingValues_eq_some.mpr hrest, by rw [Option.some.inj hv]⟩

theorem matchesBindings_map_some : ∀ {t values : Tuple}, t.length = values.length →
    (t.matchesBindings (values.map some) = true ↔ t = values)
  | [], [], _ => iff_of_true rfl rfl
  | v :: t, w :: values, h => by
    have hlen : List.length t = values.length := Nat.succ.inj h
    rw [map_cons, Tuple.matchesBindings, Bool.and_eq_true, beq_iff_eq,
      matchesBindings_map_some hlen, List.cons.injEq]

/-- The index that serves a scan, if one does: the longest run of bound leading columns among the
secondary indexes, unless the rows in order have a longer one or every column is bound. -/
def RelationMetadata.scanIndex (metadata : RelationMetadata) (bindings : Bindings) :
    Option TupleIndexSpec :=
  if (fullTupleBindingValues bindings).isSome then none
  else
    match lastMaxBy (fun spec => spec.leadingBoundCount bindings)
      (metadata.secondaryIndexes.filter fun spec =>
        decide (0 < spec.leadingBoundCount bindings)) with
    | none => none
    | some spec =>
      if spec.leadingBoundCount bindings < TupleStore.naturalLeadingBoundCount bindings then none
      else some spec

/-- How a scan reaches the rows. -/
inductive ScanAccess (M : Type → Type) where
  | tupleStore (boundCount : ℕ)
  | index (index : TupleIndex M) (boundCount : ℕ)

namespace RelationState

variable {M : Type → Type} [ByteMap M]

/-! ## The operations -/

def empty (metadata : RelationMetadata) : Except KernelError (RelationState M) :=
  match validateMetadata metadata with
  | .error e => .error e
  | .ok () => .ok
    { metadata := metadata
      tuples := TupleStore.empty
      indexes := metadata.secondaryIndexes.map fun spec => TupleIndex.empty spec metadata.arity }

/-- The rows of the relation, sorted. -/
def rows (state : RelationState M) : SortedSet Tuple := state.tuples.rows

def containsTuple (state : RelationState M) (tuple : Tuple) : Bool := state.tuples.contains tuple

/-- `insert`, with what it returns: whether the tuple is new. -/
def insert (tuple : Tuple) (state : RelationState M) : RelationState M × Bool :=
  match state.tuples.insert tuple with
  | (tuples, false) => ({ state with tuples := tuples }, false)
  | (tuples, true) =>
    ({ state with tuples := tuples, indexes := state.indexes.map (TupleIndex.insert tuple) }, true)

/-- `remove`, with what it returns: whether the tuple was there. -/
def remove (tuple : Tuple) (state : RelationState M) : RelationState M × Bool :=
  match state.tuples.remove tuple with
  | (tuples, false) => ({ state with tuples := tuples }, false)
  | (tuples, true) =>
    ({ state with tuples := tuples, indexes := state.indexes.map (TupleIndex.remove tuple) }, true)

/-- One turn of `apply_ordered_changes`: a retraction counts only of a tuple the base had. -/
def applyChange (baseContains : Tuple → Bool) (change : Tuple × FactChangeKind)
    (state : RelationState M) : RelationState M × Bool :=
  match change.2 with
  | .assert => state.insert change.1
  | .retract => if baseContains change.1 then state.remove change.1 else (state, false)

/-- `apply_ordered_changes`, with the changes that took effect. -/
def applyOrderedChanges (baseContains : Tuple → Bool) :
    List (Tuple × FactChangeKind) → RelationState M → RelationState M × List (Tuple × FactChangeKind)
  | [], state => (state, [])
  | change :: changes, state =>
    let (state, applied) := state.applyChange baseContains change
    let (state, rest) := applyOrderedChanges baseContains changes state
    (state, if applied then change :: rest else rest)

/-- `apply_ordered_asserts_to_empty`, with the changes that took effect.  The tuples come sorted. -/
def applyOrderedAssertsToEmpty (tuples : List Tuple) (state : RelationState M) :
    RelationState M × List (Tuple × FactChangeKind) :=
  let rows := SortedSet.ofList tuples
  if rows.list.isEmpty then (state, [])
  else
    ({ state with
        tuples := TupleStore.fromSortedUnique rows
        indexes := state.indexes.map fun index =>
          TupleIndex.fromSortedUniqueRows index.spec state.metadata.arity rows },
      rows.list.map fun t => (t, .assert))

/-- `best_access`. -/
def bestAccess (state : RelationState M) (bindings : Bindings) : Option (ScanAccess M) :=
  let tupleCount := TupleStore.naturalLeadingBoundCount bindings
  let bestIndex := lastMaxBy (fun index => index.spec.leadingBoundCount bindings)
    (state.indexes.filter fun index => decide (0 < index.spec.leadingBoundCount bindings))
  match bestIndex with
  | none => if tupleCount = 0 then none else some (.tupleStore tupleCount)
  | some index =>
    if index.spec.leadingBoundCount bindings < tupleCount then some (.tupleStore tupleCount)
    else some (.index index (index.spec.leadingBoundCount bindings))

/-- `scan`. -/
def scan (state : RelationState M) (bindings : Bindings) : Except KernelError (List Tuple) :=
  match state.metadata.validateBindings bindings with
  | .error e => .error e
  | .ok () =>
    match fullTupleBindingValues bindings with
    | some values => .ok (state.tuples.tupleForValues values).toList
    | none =>
      match state.bestAccess bindings with
      | some (.tupleStore count) => .ok (state.tuples.scanPrefix bindings count)
      | some (.index index count) => .ok (index.scanPrefix bindings count)
      | none => .ok (state.tuples.matching bindings)

/-- `index_for_positions`. -/
def indexForPositions (state : RelationState M) (positions : List ℕ) : Option (TupleIndex M) :=
  state.indexes.find? fun index => index.spec.positions = positions

/-- The bindings that ask for some columns only. -/
def keyBindings (arity : ℕ) (columns : List (ℕ × Option Value)) : Bindings :=
  columns.foldl (fun bindings c => bindings.set c.1 c.2) (List.replicate arity none)

/-- The first row a visit shows. -/
def firstMatch (state : RelationState M) (bindings : Bindings) : Option Tuple :=
  match state.scan bindings with
  | .ok rows => rows.head?
  | .error _ => none

/-- `tuple_for_key`: a row that agrees with the tuple on the given columns. -/
def tupleForKey (state : RelationState M) (positions : List ℕ) (keyTuple : Tuple) : Option Tuple :=
  if isNaturalFullTuplePositions positions state.metadata.arity then
    state.tuples.tupleForValues keyTuple
  else
    match state.indexForPositions positions with
    | some index => index.tupleForKeyTuple keyTuple
    | none =>
      state.firstMatch (keyBindings state.metadata.arity
        (positions.map fun p => (p, keyTuple[p]?)))

/-- `tuple_for_projected_key`: the same from the values of the columns. -/
def tupleForProjectedKey (state : RelationState M) (positions : List ℕ) (keyValues : Tuple) :
    Option Tuple :=
  if isNaturalFullTuplePositions positions state.metadata.arity then
    state.tuples.tupleForValues keyValues
  else
    match state.indexForPositions positions with
    | some index => index.tupleForKeyValues keyValues
    | none =>
      state.firstMatch (keyBindings state.metadata.arity (positions.zip (keyValues.map some)))

/-! ## What every operation keeps -/

/-- **The invariant of a relation state.** -/
structure Valid (state : RelationState M) : Prop where
  accepted : validateMetadata state.metadata = .ok ()
  specs : state.indexes.map TupleIndex.spec = state.metadata.secondaryIndexes
  length_eq : ∀ t ∈ state.rows, t.length = state.metadata.arity
  within : ∀ index ∈ state.indexes, index.Within state.rows
  indexes : ∀ index ∈ state.indexes, index.spec.Faithful state.metadata.arity →
    index.Indexes state.metadata.arity state.rows

variable {state : RelationState M}

theorem Valid.bound (h : state.Valid) {index : TupleIndex M} (hindex : index ∈ state.indexes) :
    ∀ p ∈ index.spec.positions, p < state.metadata.arity := by
  have hmem : index.spec ∈ state.metadata.secondaryIndexes :=
    h.specs ▸ mem_map_of_mem hindex
  exact (validateMetadata_eq_ok.mp h.accepted).1 _ (mem_of_mem_filter hmem)

theorem Valid.sound (h : state.Valid) {index : TupleIndex M} (hindex : index ∈ state.indexes)
    (hfaithful : index.spec.Faithful state.metadata.arity) : index.Sound state.metadata.arity :=
  ⟨h.bound hindex, hfaithful⟩

theorem empty_eq_ok {metadata : RelationMetadata} :
    (∃ state, (empty metadata : Except KernelError (RelationState M)) = .ok state) ↔
      validateMetadata metadata = .ok () := by
  unfold empty
  split
  · next e he => simp [he]
  · next he => simp [he]

/-- What `empty` makes. -/
theorem empty_spec {metadata : RelationMetadata} (h : empty metadata = .ok state) :
    state.metadata = metadata ∧ state.rows = SortedSet.empty ∧ state.Valid := by
  unfold empty at h
  split at h
  · cases h
  rename_i hok
  obtain rfl := Except.ok.inj h
  refine ⟨rfl, rfl, hok, ?_, ?_, ?_, ?_⟩
  · rw [map_map]
    exact map_id _
  · exact fun t ht => absurd ht (SortedSet.notMem_empty t)
  · intro index hindex
    obtain ⟨spec, -, rfl⟩ := mem_map.mp hindex
    exact TupleIndex.within_empty spec
  · intro index hindex _
    obtain ⟨spec, -, rfl⟩ := mem_map.mp hindex
    exact TupleIndex.indexes_empty spec

theorem empty_indexes {metadata : RelationMetadata} (h : empty metadata = .ok state) :
    state.indexes =
      metadata.secondaryIndexes.map fun spec => TupleIndex.empty spec metadata.arity := by
  unfold empty at h
  split at h
  · cases h
  obtain rfl := Except.ok.inj h
  rfl

@[simp] theorem insert_metadata (state : RelationState M) (t : Tuple) :
    (state.insert t).1.metadata = state.metadata := by
  unfold insert
  split <;> rfl

@[simp] theorem insert_rows (state : RelationState M) (t : Tuple) :
    (state.insert t).1.rows = state.rows.insert t := by
  have hrows := state.tuples.insert_rows t
  unfold insert
  split
  · next h => exact (congrArg TupleStore.rows (congrArg Prod.fst h)).symm.trans hrows
  · next h => exact (congrArg TupleStore.rows (congrArg Prod.fst h)).symm.trans hrows

theorem insert_snd {t : Tuple} : (state.insert t).2 = true ↔ t ∉ state.rows := by
  have hsnd : (state.tuples.insert t).2 = true ↔ t ∉ state.tuples.rows := TupleStore.insert_snd
  unfold insert
  split
  · next h => rwa [h] at hsnd
  · next h => rwa [h] at hsnd

@[simp] theorem remove_metadata (state : RelationState M) (t : Tuple) :
    (state.remove t).1.metadata = state.metadata := by
  unfold remove
  split <;> rfl

@[simp] theorem remove_rows (state : RelationState M) (t : Tuple) :
    (state.remove t).1.rows = state.rows.erase t := by
  have hrows := state.tuples.remove_rows t
  unfold remove
  split
  · next h => exact (congrArg TupleStore.rows (congrArg Prod.fst h)).symm.trans hrows
  · next h => exact (congrArg TupleStore.rows (congrArg Prod.fst h)).symm.trans hrows

theorem remove_snd {t : Tuple} : (state.remove t).2 = true ↔ t ∈ state.rows := by
  have hsnd : (state.tuples.remove t).2 = true ↔ t ∈ state.tuples.rows := TupleStore.remove_snd
  unfold remove
  split
  · next h => rwa [h] at hsnd
  · next h => rwa [h] at hsnd

/-- The indexes follow the rows. -/
theorem insert_indexes (state : RelationState M) (t : Tuple) :
    (state.insert t).1.indexes =
      if t ∈ state.rows then state.indexes else state.indexes.map (TupleIndex.insert t) := by
  have hsnd : (state.tuples.insert t).2 = true ↔ t ∉ state.rows := TupleStore.insert_snd
  unfold insert
  split
  · next h =>
    rw [h] at hsnd
    exact (if_pos (not_not.mp fun hn => Bool.false_ne_true (hsnd.mpr hn))).symm
  · next h =>
    rw [h] at hsnd
    exact (if_neg (hsnd.mp rfl)).symm

theorem remove_indexes (state : RelationState M) (t : Tuple) :
    (state.remove t).1.indexes =
      if t ∈ state.rows then state.indexes.map (TupleIndex.remove t) else state.indexes := by
  have hsnd : (state.tuples.remove t).2 = true ↔ t ∈ state.rows := TupleStore.remove_snd
  unfold remove
  split
  · next h =>
    rw [h] at hsnd
    exact (if_neg fun hn => Bool.false_ne_true (hsnd.mpr hn)).symm
  · next h =>
    rw [h] at hsnd
    exact (if_pos (hsnd.mp rfl)).symm

theorem Valid.insert (h : state.Valid) {t : Tuple} (ht : t.length = state.metadata.arity) :
    (state.insert t).1.Valid := by
  by_cases hmem : t ∈ state.rows
  · have hrows : (state.insert t).1.rows = state.rows := by
      rw [insert_rows]
      exact SortedSet.ext_mem fun u =>
        SortedSet.mem_insert.trans (or_iff_right_of_imp fun hu => hu ▸ hmem)
    have hindexes := state.insert_indexes t
    rw [if_pos hmem] at hindexes
    refine ⟨?_, ?_, ?_, ?_, ?_⟩
    · rw [insert_metadata]; exact h.accepted
    · rw [hindexes, insert_metadata]; exact h.specs
    · rw [hrows, insert_metadata]; exact h.length_eq
    · rw [hindexes, hrows]; exact h.within
    · rw [hindexes, hrows, insert_metadata]; exact h.indexes
  · have hindexes := state.insert_indexes t
    rw [if_neg hmem] at hindexes
    refine ⟨?_, ?_, ?_, ?_, ?_⟩
    · rw [insert_metadata]; exact h.accepted
    · rw [hindexes, insert_metadata, ← h.specs, map_map]
      exact map_congr_left fun index _ => index.insert_spec t
    · rw [insert_rows, insert_metadata]
      intro u hu
      rcases SortedSet.mem_insert.mp hu with rfl | hu
      · exact ht
      · exact h.length_eq u hu
    · rw [hindexes, insert_rows]
      intro index hindex
      obtain ⟨old, hold, rfl⟩ := mem_map.mp hindex
      exact (h.within old hold).insert t
    · rw [hindexes, insert_rows, insert_metadata]
      intro index hindex hfaithful
      obtain ⟨old, hold, rfl⟩ := mem_map.mp hindex
      rw [TupleIndex.insert_spec] at hfaithful
      exact (h.indexes old hold hfaithful).insert (h.sound hold hfaithful) h.length_eq ht

theorem Valid.remove (h : state.Valid) (t : Tuple) : (state.remove t).1.Valid := by
  by_cases hmem : t ∈ state.rows
  · have hindexes := state.remove_indexes t
    rw [if_pos hmem] at hindexes
    refine ⟨?_, ?_, ?_, ?_, ?_⟩
    · rw [remove_metadata]; exact h.accepted
    · rw [hindexes, remove_metadata, ← h.specs, map_map]
      exact map_congr_left fun index _ => index.remove_spec t
    · rw [remove_rows, remove_metadata]
      exact fun u hu => h.length_eq u (SortedSet.mem_erase.mp hu).2
    · rw [hindexes, remove_rows]
      intro index hindex
      obtain ⟨old, hold, rfl⟩ := mem_map.mp hindex
      exact (h.within old hold).remove t
    · rw [hindexes, remove_rows, remove_metadata]
      intro index hindex hfaithful
      obtain ⟨old, hold, rfl⟩ := mem_map.mp hindex
      rw [TupleIndex.remove_spec] at hfaithful
      exact (h.indexes old hold hfaithful).remove (h.sound hold hfaithful) h.length_eq
        (h.length_eq t hmem)
  · have hrows : (state.remove t).1.rows = state.rows := by
      rw [remove_rows]
      exact SortedSet.ext_mem fun u =>
        SortedSet.mem_erase.trans (and_iff_right_of_imp fun hu htu => hmem (htu ▸ hu))
    have hindexes := state.remove_indexes t
    rw [if_neg hmem] at hindexes
    refine ⟨?_, ?_, ?_, ?_, ?_⟩
    · rw [remove_metadata]; exact h.accepted
    · rw [hindexes, remove_metadata]; exact h.specs
    · rw [hrows, remove_metadata]; exact h.length_eq
    · rw [hindexes, hrows]; exact h.within
    · rw [hindexes, hrows, remove_metadata]; exact h.indexes

/-- A bulk load leaves exactly the given rows. -/
theorem Valid.applyOrderedAssertsToEmpty (h : state.Valid) {tuples : List Tuple}
    (hempty : state.rows = SortedSet.empty) (ht : ∀ t ∈ tuples, t.length = state.metadata.arity) :
    (state.applyOrderedAssertsToEmpty tuples).1.Valid ∧
      (state.applyOrderedAssertsToEmpty tuples).1.metadata = state.metadata ∧
      (state.applyOrderedAssertsToEmpty tuples).1.rows = SortedSet.ofList tuples ∧
      (state.applyOrderedAssertsToEmpty tuples).2 =
        (SortedSet.ofList tuples).list.map fun t => (t, .assert) := by
  unfold RelationState.applyOrderedAssertsToEmpty
  dsimp only
  split
  · next hnil =>
    have hnil : (SortedSet.ofList tuples).list = [] := List.isEmpty_iff.mp hnil
    exact ⟨h, rfl, hempty.trans (SortedSet.ext hnil.symm), by rw [hnil]; rfl⟩
  have hrows : (RelationState.mk state.metadata (TupleStore.fromSortedUnique
      (SortedSet.ofList tuples)) (state.indexes.map fun index =>
        TupleIndex.fromSortedUniqueRows index.spec state.metadata.arity
          (SortedSet.ofList tuples)) : RelationState M).rows = SortedSet.ofList tuples :=
    TupleStore.rows_fromSortedUnique _
  have hlen : ∀ t ∈ SortedSet.ofList tuples, t.length = state.metadata.arity :=
    fun t hmem => ht t (SortedSet.mem_ofList.mp hmem)
  refine ⟨⟨h.accepted, ?_, ?_, ?_, ?_⟩, rfl, hrows, rfl⟩
  · refine Eq.trans ?_ h.specs
    rw [map_map]
    exact map_congr_left fun index _ => TupleIndex.fromSortedUniqueRows_spec _ _
  · rwa [hrows]
  · rw [hrows]
    intro index hindex
    obtain ⟨old, hold, rfl⟩ := mem_map.mp hindex
    exact TupleIndex.within_fromSortedUniqueRows _ _
  · rw [hrows]
    intro index hindex hfaithful
    obtain ⟨old, hold, rfl⟩ := mem_map.mp hindex
    rw [TupleIndex.fromSortedUniqueRows_spec] at hfaithful
    exact TupleIndex.indexes_fromSortedUniqueRows (h.bound hold) hfaithful hlen

/-! ## Scans -/

/-- The choice of an index, seen from the metadata. -/
theorem Valid.bestIndex_eq (h : state.Valid) (bindings : Bindings) :
    (lastMaxBy (fun index => index.spec.leadingBoundCount bindings)
      (state.indexes.filter fun index =>
        decide (0 < index.spec.leadingBoundCount bindings))).map TupleIndex.spec =
      lastMaxBy (fun spec => spec.leadingBoundCount bindings)
        (state.metadata.secondaryIndexes.filter fun spec =>
          decide (0 < spec.leadingBoundCount bindings)) := by
  rw [← h.specs, filter_map, lastMaxBy_map]
  rfl

variable {bindings : Bindings}

theorem filter_matchesBindings_full {values : Tuple} (h : state.Valid)
    (hlen : values.length = state.metadata.arity) :
    (state.tuples.tupleForValues values).toList =
      state.rows.list.filter fun t => t.matchesBindings (values.map some) := by
  have hmatch : ∀ t ∈ state.rows.list, (t.matchesBindings (values.map some) = true ↔ t = values) :=
    fun t ht => matchesBindings_map_some ((h.length_eq t ht).trans hlen.symm)
  rw [TupleStore.tupleForValues_eq]
  refine eq_of_mem_iff ?_ (state.rows.sorted.filter _) fun t => ?_
  · split
    · exact pairwise_singleton _ _
    · exact List.Pairwise.nil
  rw [mem_filter]
  constructor
  · intro ht
    split at ht
    · next hmem =>
      obtain rfl := mem_singleton.mp ht
      exact ⟨hmem, (hmatch t hmem).mpr rfl⟩
    · cases ht
  · rintro ⟨hmem, hm⟩
    obtain rfl := (hmatch t hmem).mp hm
    rw [if_pos (show t ∈ state.tuples.rows from hmem)]
    exact mem_singleton_self t

/-- **A scan that no index serves is the filtered set of rows, in order.** -/
theorem scan_of_scanIndex_eq_none (h : state.Valid)
    (hlen : bindings.length = state.metadata.arity)
    (hnone : state.metadata.scanIndex bindings = none) :
    state.scan bindings = .ok (state.rows.list.filter fun t => t.matchesBindings bindings) := by
  rw [scan, RelationMetadata.validateBindings_eq_ok.mpr hlen]
  dsimp only
  cases hfull : fullTupleBindingValues bindings with
  | some values =>
    obtain rfl := fullTupleBindingValues_eq_some.mp hfull
    rw [length_map] at hlen
    exact congrArg Except.ok (filter_matchesBindings_full h hlen)
  | none =>
    have hbest := h.bestIndex_eq bindings
    rw [RelationMetadata.scanIndex, hfull, ← hbest] at hnone
    dsimp only
    unfold bestAccess
    dsimp only
    cases hindex : lastMaxBy (fun index => index.spec.leadingBoundCount bindings)
        (state.indexes.filter fun index =>
          decide (0 < index.spec.leadingBoundCount bindings)) with
    | none =>
      dsimp only
      split_ifs
      · rfl
      · exact congrArg Except.ok (state.tuples.scanPrefix_eq bindings)
    | some index =>
      rw [hindex] at hnone
      simp only [Option.isSome_none, Bool.false_eq_true, if_false, Option.map_some] at hnone
      split_ifs at hnone with hlt
      dsimp only
      rw [if_pos hlt]
      exact congrArg Except.ok (state.tuples.scanPrefix_eq bindings)

/-- **A scan that an index serves is the scan of that index.** -/
theorem scan_of_scanIndex_eq_some (h : state.Valid)
    (hlen : bindings.length = state.metadata.arity) {spec : TupleIndexSpec}
    (hsome : state.metadata.scanIndex bindings = some spec) :
    ∃ index ∈ state.indexes, index.spec = spec ∧
      state.scan bindings = .ok (index.scanPrefix bindings (spec.leadingBoundCount bindings)) := by
  have hbest := h.bestIndex_eq bindings
  rw [RelationMetadata.scanIndex, ← hbest] at hsome
  split at hsome
  · cases hsome
  rename_i hfull
  have hfull : fullTupleBindingValues bindings = none := Option.not_isSome_iff_eq_none.mp hfull
  rcases hindex : lastMaxBy (fun index => index.spec.leadingBoundCount bindings)
      (state.indexes.filter fun index =>
        decide (0 < index.spec.leadingBoundCount bindings)) with _ | index
  · rw [hindex] at hsome
    cases hsome
  rw [hindex] at hsome
  simp only [Option.map_some] at hsome
  split_ifs at hsome with hlt
  obtain rfl := Option.some.inj hsome
  refine ⟨index, mem_of_mem_filter (mem_of_lastMaxBy hindex), rfl, ?_⟩
  rw [scan, RelationMetadata.validateBindings_eq_ok.mpr hlen]
  dsimp only
  rw [hfull, bestAccess, hindex]
  dsimp only
  rw [if_neg hlt]

/-- A scan of well-formed bindings succeeds, with rows that match. -/
theorem Valid.scan_sound (h : state.Valid) (hlen : bindings.length = state.metadata.arity) :
    ∃ out, state.scan bindings = .ok out ∧
      ∀ t ∈ out, t ∈ state.rows ∧ t.matchesBindings bindings = true := by
  rcases hindex : state.metadata.scanIndex bindings with _ | spec
  · exact ⟨_, scan_of_scanIndex_eq_none h hlen hindex, fun t ht => mem_filter.mp ht⟩
  obtain ⟨index, hmem, rfl, hscan⟩ := scan_of_scanIndex_eq_some h hlen hindex
  exact ⟨_, hscan, fun t ht =>
    (h.within index hmem).of_mem_scanPrefix (h.bound hmem) h.length_eq ht⟩

end RelationState

end Mica
