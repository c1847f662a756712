import Mica.Kernel.KeyLookup
import Mica.Kernel.Snapshot

/-!
# Kernel/AccessPaths — every way to read a relation, over all its histories

A relation is read by scans, visits, lookups by key and joins, each through the rows themselves or
through the index that fits.  `RelationState.Reached` are the states that inserts, removals and bulk
builds make of an empty relation.  In each of them all these ways show the same rows (`Agrees`,
`JoinsExactly`), provided that no index lists a column twice while having as many positions as the
relation has columns; with such an index a row is lost (`FaithfulIndexes`, `not_agrees`).
-/

open OrderCode SortedList List
open Option (some.inj)

namespace Mica

/-! ## Visits -/

/-- What a visitor answers to a row. -/
inductive ScanControl where
  | goOn
  | stop
  deriving DecidableEq

section Visit

variable {σ : Type}

/-- Show the rows that are asked for, one after the other, until the visitor stops or fails. -/
def visitRows (keep : Tuple → Bool) (visitor : Tuple → σ → Except KernelError (ScanControl × σ)) :
    List Tuple → σ → Except KernelError (ScanControl × σ)
  | [], s => .ok (.goOn, s)
  | t :: rows, s =>
    if keep t then
      match visitor t s with
      | .error e => .error e
      | .ok (.stop, s) => .ok (.stop, s)
      | .ok (.goOn, s) => visitRows keep visitor rows s
    else visitRows keep visitor rows s

/-- The same over the buckets of an index. -/
def visitBuckets (keep : Tuple → Bool) (visitor : Tuple → σ → Except KernelError (ScanControl × σ)) :
    List TupleBucket → σ → Except KernelError (ScanControl × σ)
  | [], s => .ok (.goOn, s)
  | bucket :: buckets, s =>
    match visitRows keep visitor bucket.list s with
    | .error e => .error e
    | .ok (.stop, s) => .ok (.stop, s)
    | .ok (.goOn, s) => visitBuckets keep visitor buckets s

variable {keep : Tuple → Bool} {visitor : Tuple → σ → Except KernelError (ScanControl × σ)}

theorem visitRows_filter : ∀ (rows : List Tuple) (s : σ),
    visitRows keep visitor rows s = visitRows (fun _ => true) visitor (rows.filter keep) s
  | [], _ => rfl
  | t :: rows, s => by
    rw [visitRows, filter_cons]
    split
    · rw [visitRows, if_pos rfl]
      cases visitor t s with
      | error e => rfl
      | ok r =>
        obtain ⟨control, s⟩ := r
        cases control with
        | stop => rfl
        | goOn => exact visitRows_filter rows s
    · exact visitRows_filter rows s

theorem visitRows_append : ∀ (rows rows' : List Tuple) (s : σ),
    visitRows keep visitor (rows ++ rows') s =
      match visitRows keep visitor rows s with
      | .error e => .error e
      | .ok (.stop, s) => .ok (.stop, s)
      | .ok (.goOn, s) => visitRows keep visitor rows' s
  | [], _, _ => rfl
  | t :: rows, rows', s => by
    rw [cons_append, visitRows, visitRows]
    split
    · cases visitor t s with
      | error e => rfl
      | ok r =>
        obtain ⟨control, s⟩ := r
        cases control with
        | stop => rfl
        | goOn => exact visitRows_append rows rows' s
    · exact visitRows_append rows rows' s

/-- The buckets one after the other are their rows one after the other. -/
theorem visitBuckets_eq : ∀ (buckets : List TupleBucket) (s : σ),
    visitBuckets keep visitor buckets s =
      visitRows (fun _ => true) visitor (buckets.flatMap fun b => b.list.filter keep) s
  | [], _ => rfl
  | b :: buckets, s => by
    rw [visitBuckets, flatMap_cons, visitRows_append, visitRows_filter]
    cases visitRows (fun _ => true) visitor (b.list.filter keep) s with
    | error e => rfl
    | ok r =>
      obtain ⟨control, s⟩ := r
      cases control with
      | stop => rfl
      | goOn => exact visitBuckets_eq buckets s

end Visit

variable {M : Type → Type} [ByteMap M]

/-! ## Joins -/

/-- `TupleStore::matching_row_pairs`: the rows that both stores have. -/
def TupleStore.matchingRowPairs : TupleStore M → TupleStore M → List (Tuple × Tuple)
  | .small left, .small right => (left.list.filter fun t => t ∈ right).map fun t => (t, t)
  | .small left, .radix entries _ _ _ =>
    left.list.filterMap fun t => (ByteMap.get (keyFromValues t) entries).map fun u => (t, u)
  | .radix entries _ _ _, .small right =>
    right.list.filterMap fun u => (ByteMap.get (keyFromValues u) entries).map fun t => (t, u)
  | .radix left _ _ _, .radix right _ _ _ => ByteMap.intersectValues left right

theorem TupleStore.mem_matchingRowPairs {left right : TupleStore M} {t u : Tuple} :
    (t, u) ∈ left.matchingRowPairs right ↔ t = u ∧ t ∈ left.rows ∧ u ∈ right.rows := by
  match left, right with
  | .small left, .small right =>
    simp only [matchingRowPairs, mem_map, mem_filter, decide_eq_true_eq, Prod.mk.injEq]
    constructor
    · rintro ⟨x, ⟨hleft, hright⟩, rfl, rfl⟩
      exact ⟨rfl, hleft, hright⟩
    · rintro ⟨rfl, hleft, hright⟩
      exact ⟨t, ⟨hleft, hright⟩, rfl, rfl⟩
  | .small left, .radix entries _ keyed _ =>
    simp only [matchingRowPairs, mem_filterMap, Option.map_eq_some_iff, Prod.mk.injEq]
    constructor
    · rintro ⟨x, hleft, y, hy, rfl, rfl⟩
      obtain ⟨rfl, hright⟩ := (get_keyFromValues keyed).mp hy
      exact ⟨rfl, hleft, hright⟩
    · rintro ⟨rfl, hleft, hright⟩
      exact ⟨t, hleft, t, (get_keyFromValues keyed).mpr ⟨rfl, hright⟩, rfl, rfl⟩
  | .radix entries _ keyed _, .small right =>
    simp only [matchingRowPairs, mem_filterMap, Option.map_eq_some_iff, Prod.mk.injEq]
    constructor
    · rintro ⟨x, hright, y, hy, rfl, rfl⟩
      obtain ⟨rfl, hleft⟩ := (get_keyFromValues keyed).mp hy
      exact ⟨rfl, hleft, hright⟩
    · rintro ⟨rfl, hleft, hright⟩
      exact ⟨t, hright, t, (get_keyFromValues keyed).mpr ⟨rfl, hleft⟩, rfl, rfl⟩
  | .radix left _ keyed _, .radix right _ keyed' _ =>
    rw [matchingRowPairs, ByteMap.mem_intersectValues]
    constructor
    · rintro ⟨k, hl, hr⟩
      obtain rfl : k = keyFromValues t := keyed _ (ByteMap.get_eq_some.mp hl)
      obtain ⟨-, hleft⟩ := (get_keyFromValues keyed).mp hl
      obtain ⟨rfl, hright⟩ := (get_keyFromValues keyed').mp hr
      exact ⟨rfl, hleft, hright⟩
    · rintro ⟨rfl, hleft, hright⟩
      exact ⟨_, (get_keyFromValues keyed).mpr ⟨rfl, hleft⟩,
        (get_keyFromValues keyed').mpr ⟨rfl, hright⟩⟩

/-- `TupleIndex::matching_row_pairs`: the rows of buckets under the same key, each tested against
its bindings. -/
def TupleIndex.matchingRowPairs (index other : TupleIndex M) (leftBindings rightBindings : Bindings) :
    List (Tuple × Tuple) :=
  (ByteMap.intersectValues index.entries other.entries).flatMap fun b =>
    (b.1.list.filter fun t => t.matchesBindings leftBindings).flatMap fun t =>
      (b.2.list.filter fun u => u.matchesBindings rightBindings).map fun u => (t, u)

theorem TupleIndex.get_bucket {index : TupleIndex M} {key : Bytes} {t : Tuple}
    (h : t ∈ index.bucket key) : ByteMap.get key index.entries = some (index.bucket key) := by
  unfold TupleIndex.bucket at h ⊢
  rcases hget : ByteMap.get key index.entries with _ | b
  · rw [hget] at h
    exact absurd h (SortedSet.notMem_empty t)
  rfl

theorem TupleIndex.mem_matchingRowPairs {index other : TupleIndex M}
    {leftBindings rightBindings : Bindings} {t u : Tuple} :
    (t, u) ∈ index.matchingRowPairs other leftBindings rightBindings ↔
      (∃ key, t ∈ index.bucket key ∧ u ∈ other.bucket key) ∧
        t.matchesBindings leftBindings = true ∧ u.matchesBindings rightBindings = true := by
  simp only [matchingRowPairs, mem_flatMap, mem_map, mem_filter, Prod.mk.injEq]
  constructor
  · rintro ⟨⟨b, c⟩, hpair, x, ⟨ht, htm⟩, y, ⟨hu, hum⟩, rfl, rfl⟩
    obtain ⟨key, hb, hc⟩ := ByteMap.mem_intersectValues.mp hpair
    refine ⟨⟨key, ?_, ?_⟩, htm, hum⟩
    · rwa [TupleIndex.bucket, hb]
    · rwa [TupleIndex.bucket, hc]
  · rintro ⟨⟨key, ht, hu⟩, htm, hum⟩
    exact ⟨(index.bucket key, other.bucket key),
      ByteMap.mem_intersectValues.mpr ⟨key, get_bucket ht, get_bucket hu⟩,
      t, ⟨ht, htm⟩, u, ⟨hu, hum⟩, rfl, rfl⟩

/-! ## Reading a state -/

namespace RelationState

/-- `ScanAccess::scan_prefix`. -/
def accessRows (state : RelationState M) (bindings : Bindings) : ScanAccess M → List Tuple
  | .tupleStore count => state.tuples.scanPrefix bindings count
  | .index index count => index.scanPrefix bindings count

/-- `ScanAccess::visit_prefix`. -/
def visitAccess {σ : Type} (state : RelationState M) (bindings : Bindings)
    (visitor : Tuple → σ → Except KernelError (ScanControl × σ)) (s : σ) :
    ScanAccess M → Except KernelError (ScanControl × σ)
  | .tupleStore count =>
    match state.tuples with
    | .small tuples => visitRows (fun t => t.matchesBindings bindings) visitor tuples.list s
    | .radix entries _ _ _ =>
      visitRows (fun t => TupleStore.naturalPrefixCoversAllBindings bindings count ||
          t.matchesBindings bindings) visitor
        (ByteMap.prefixValues (keyFromValues ((bindings.take count).filterMap id)) entries) s
  | .index index count =>
    visitBuckets (fun t => index.prefixCoversAllBindings bindings count ||
        t.matchesBindings bindings) visitor
      (ByteMap.prefixValues (index.bindingPrefixKey bindings count) index.entries) s

/-- `visit`. -/
def visit {σ : Type} (state : RelationState M) (bindings : Bindings)
    (visitor : Tuple → σ → Except KernelError (ScanControl × σ)) (s : σ) : Except KernelError σ :=
  match state.metadata.validateBindings bindings with
  | .error e => .error e
  | .ok () =>
    match fullTupleBindingValues bindings with
    | some values =>
      match state.tuples.tupleForValues values with
      | some t => (visitor t s).map Prod.snd
      | none => .ok s
    | none =>
      match state.bestAccess bindings with
      | some access => (state.visitAccess bindings visitor s access).map Prod.snd
      | none =>
        (visitRows (fun t => t.matchesBindings bindings) visitor state.rows.list s).map Prod.snd

/-- `natural_full_tuple_join`. -/
def naturalFullTupleJoin (state : RelationState M) (leftBindings : Bindings)
    (right : RelationState M) (rightBindings : Bindings) : List Tuple :=
  sortDedup (((state.tuples.matchingRowPairs right.tuples).filter fun e =>
    e.1.matchesBindings leftBindings && e.2.matchesBindings rightBindings).map fun e => e.1 ++ e.2)

/-- `join_eq`: nothing where a side has no index with exactly its columns. -/
def joinEq (state : RelationState M) (leftBindings : Bindings) (leftPositions : List ℕ)
    (right : RelationState M) (rightBindings : Bindings) (rightPositions : List ℕ) :
    Except KernelError (Option (List Tuple)) :=
  match state.metadata.validateBindings leftBindings with
  | .error e => .error e
  | .ok () =>
    match right.metadata.validateBindings rightBindings with
    | .error e => .error e
    | .ok () =>
      if isNaturalFullTuplePositions leftPositions state.metadata.arity &&
          isNaturalFullTuplePositions rightPositions right.metadata.arity then
        .ok (some (state.naturalFullTupleJoin leftBindings right rightBindings))
      else
        match state.indexForPositions leftPositions, right.indexForPositions rightPositions with
        | some leftIndex, some rightIndex =>
          .ok (some (sortDedup ((leftIndex.matchingRowPairs rightIndex leftBindings
            rightBindings).map fun e => e.1 ++ e.2)))
        | _, _ => .ok none

/-! ## Histories -/

/-- The states that inserts, removals and bulk builds make of an empty relation.  Rows have the arity
of the relation, which `validate_tuple` checks, and a bulk build starts from no rows. -/
def Reached (metadata : RelationMetadata) (state : RelationState M) : Prop :=
  state.metadata = metadata ∧ state.Built fun metadata t => t.length = metadata.arity

variable {metadata : RelationMetadata} {state right : RelationState M} {bindings : Bindings}

theorem Reached.valid (h : Reached metadata state) : state.Valid := Built.valid (fun _ _ => id) h.2

theorem reached_empty (h : empty metadata = .ok state) : Reached metadata state :=
  ⟨(empty_spec h).1, .empty h⟩

theorem Reached.insert (h : Reached metadata state) {t : Tuple} (ht : t.length = metadata.arity) :
    Reached metadata (state.insert t).1 :=
  ⟨(insert_metadata state t).trans h.1, .insert h.2 (h.1.symm ▸ ht)⟩

/-! ## What agreement is -/

/-- A list of exactly the rows that match, each once. -/
def Lists (state : RelationState M) (bindings : Bindings) (out : List Tuple) : Prop :=
  out.Nodup ∧ ∀ t, t ∈ out ↔ t ∈ state.rows ∧ t.matchesBindings bindings = true

/-- **All the ways to read a state show its rows.** -/
structure Agrees (state : RelationState M) : Prop where
  indexes : ∀ index ∈ state.indexes, ∀ t, (∃ key, t ∈ index.bucket key) ↔ t ∈ state.rows
  contains : ∀ t, state.containsTuple t = true ↔ t ∈ state.rows
  scan : ∀ bindings : Bindings, bindings.length = state.metadata.arity →
    ∃ out, state.scan bindings = .ok out ∧ state.Lists bindings out
  -- the access that `estimate_scan_count` counts is the one of the scan
  access : ∀ bindings : Bindings, bindings.length = state.metadata.arity →
    ∀ access, state.bestAccess bindings = some access →
      state.Lists bindings (state.accessRows bindings access)
  visit : ∀ bindings : Bindings, bindings.length = state.metadata.arity →
    ∃ out, state.Lists bindings out ∧ ∀ (σ : Type)
      (visitor : Tuple → σ → Except KernelError (ScanControl × σ)) (s : σ),
      state.visit bindings visitor s = (visitRows (fun _ => true) visitor out s).map Prod.snd
  lookup : ∀ positions key, (∀ p ∈ positions, p < state.metadata.arity) →
    key.length = state.metadata.arity →
    (∀ u, state.tupleForKey positions key = some u →
      u ∈ state.rows ∧ u.select positions = key.select positions) ∧
    (state.tupleForKey positions key = none →
      ∀ u ∈ state.rows, u.select positions ≠ key.select positions) ∧
    state.tupleForProjectedKey positions (key.select positions) = state.tupleForKey positions key

/-- **A join of two states has exactly the pairs of matching rows with the same key**, sorted. -/
def JoinsExactly (state right : RelationState M) : Prop :=
  ∀ leftBindings leftPositions rightBindings rightPositions,
    leftBindings.length = state.metadata.arity → rightBindings.length = right.metadata.arity →
    ∃ result, state.joinEq leftBindings leftPositions right rightBindings rightPositions =
        .ok result ∧
      ∀ out, result = some out → out.Pairwise (· < ·) ∧
        ∀ w, w ∈ out ↔ ∃ t ∈ state.rows, ∃ u ∈ right.rows,
          t.matchesBindings leftBindings = true ∧ u.matchesBindings rightBindings = true ∧
          t.select leftPositions = u.select rightPositions ∧ w = t ++ u

end RelationState

/-- No index lists a column twice while having as many positions as the relation has columns. -/
def RelationMetadata.FaithfulIndexes (metadata : RelationMetadata) : Prop :=
  ∀ spec ∈ metadata.indexes, spec.Faithful metadata.arity

namespace RelationState

variable {metadata : RelationMetadata} {state right : RelationState M} {bindings : Bindings}

/-! ## Faithful indexes -/

theorem Valid.faithful (h : state.Valid) (hf : state.metadata.FaithfulIndexes)
    {index : TupleIndex M} (hindex : index ∈ state.indexes) :
    index.spec.Faithful state.metadata.arity := by
  have hmem : index.spec ∈ state.metadata.secondaryIndexes := h.specs ▸ mem_map_of_mem hindex
  exact hf _ (mem_of_mem_filter hmem)

theorem faithful_of_scanIndex (hf : state.metadata.FaithfulIndexes) {spec : TupleIndexSpec}
    (h : state.metadata.scanIndex bindings = some spec) : spec.Faithful state.metadata.arity :=
  hf spec (RelationMetadata.mem_indexes_of_scanIndex h).1

theorem findsKeys (hf : state.metadata.FaithfulIndexes) (positions : List ℕ) :
    state.metadata.FindsKeys positions := by
  intro spec hspec
  unfold RelationMetadata.keyIndex at hspec
  split at hspec
  · cases hspec
  split at hspec
  · next hfind =>
    obtain rfl := some.inj hspec
    exact hf _ (mem_of_mem_filter (mem_of_find?_eq_some hfind))
  · exact faithful_of_scanIndex hf hspec

theorem lists_index (h : state.Valid) {index : TupleIndex M} (hindex : index ∈ state.indexes)
    (hfaithful : index.spec.Faithful state.metadata.arity) :
    state.Lists bindings (index.scanPrefix bindings (index.spec.leadingBoundCount bindings)) := by
  have hind := h.indexes index hindex hfaithful
  refine ⟨(hind.pairwise_scanPrefix bindings _).imp ?_,
    fun t => hind.mem_scanPrefix (h.bound hindex) h.length_eq⟩
  rintro t u hbefore rfl
  rcases hbefore with hlt | ⟨-, hlt⟩
  · exact lt_irrefl _ hlt
  · exact lt_irrefl _ hlt

theorem lists_filter (state : RelationState M) (bindings : Bindings) :
    state.Lists bindings (state.rows.list.filter fun t => t.matchesBindings bindings) :=
  ⟨(state.rows.sorted.filter _).imp ne_of_lt, fun _ => mem_filter⟩

/-- What `best_access` chooses. -/
theorem bestAccess_cases {access : ScanAccess M} (h : state.bestAccess bindings = some access) :
    access = .tupleStore (TupleStore.naturalLeadingBoundCount bindings) ∨
      ∃ index ∈ state.indexes, access = .index index (index.spec.leadingBoundCount bindings) := by
  unfold bestAccess at h
  dsimp only at h
  split at h
  · split_ifs at h
    exact .inl (some.inj h).symm
  rename_i index hbest
  have hmem : index ∈ state.indexes := mem_of_mem_filter (mem_of_lastMaxBy hbest)
  split_ifs at h
  · exact .inl (some.inj h).symm
  · exact .inr ⟨index, hmem, (some.inj h).symm⟩

theorem lists_access (h : state.Valid) (hf : state.metadata.FaithfulIndexes)
    {access : ScanAccess M} (haccess : state.bestAccess bindings = some access) :
    state.Lists bindings (state.accessRows bindings access) := by
  rcases bestAccess_cases haccess with rfl | ⟨index, hindex, rfl⟩
  · rw [accessRows, TupleStore.scanPrefix_eq]
    exact lists_filter state bindings
  · exact lists_index h hindex (h.faithful hf hindex)

/-- A visit through an access shows the rows that its scan lists. -/
theorem visitAccess_eq {σ : Type} (visitor : Tuple → σ → Except KernelError (ScanControl × σ))
    (s : σ) : ∀ access : ScanAccess M, state.visitAccess bindings visitor s access =
      visitRows (fun _ => true) visitor (state.accessRows bindings access) s
  | .tupleStore count => by
    rw [visitAccess, accessRows]
    cases state.tuples with
    | small tuples => exact visitRows_filter _ _
    | radix entries len keyed len_eq => exact visitRows_filter _ _
  | .index index count => visitBuckets_eq _ _

/-- **A visit shows the rows that match**, in an order of its own. -/
theorem visit_spec (h : state.Valid) (hf : state.metadata.FaithfulIndexes)
    (hlen : bindings.length = state.metadata.arity) :
    ∃ out, state.Lists bindings out ∧ ∀ (σ : Type)
      (visitor : Tuple → σ → Except KernelError (ScanControl × σ)) (s : σ),
      state.visit bindings visitor s = (visitRows (fun _ => true) visitor out s).map Prod.snd := by
  unfold visit
  rw [RelationMetadata.validateBindings_eq_ok.mpr hlen]
  dsimp only
  cases hfull : fullTupleBindingValues bindings with
  | some values =>
    obtain rfl := fullTupleBindingValues_eq_some.mp hfull
    rw [length_map] at hlen
    refine ⟨(state.tuples.tupleForValues values).toList, ?_, fun σ visitor s => ?_⟩
    · rw [filter_matchesBindings_full h hlen]
      exact lists_filter state _
    dsimp only
    cases state.tuples.tupleForValues values with
    | none => rfl
    | some t =>
      dsimp only [Option.toList_some, visitRows]
      rw [if_pos rfl]
      cases visitor t s with
      | error e => rfl
      | ok r =>
        obtain ⟨control, s⟩ := r
        cases control with
        | stop => rfl
        | goOn => rfl
  | none =>
    cases haccess : state.bestAccess bindings with
    | none =>
      exact ⟨_, lists_filter state bindings, fun σ visitor s => by
        dsimp only
        rw [visitRows_filter]⟩
    | some access =>
      exact ⟨_, lists_access h hf haccess, fun σ visitor s => by
        dsimp only
        rw [visitAccess_eq]⟩

/-- **With faithful indexes every way to read a state agrees.** -/
theorem Valid.agrees (h : state.Valid) (hf : state.metadata.FaithfulIndexes) : state.Agrees where
  indexes index hindex t := by
    have hind := h.indexes index hindex (h.faithful hf hindex)
    exact ⟨fun ⟨key, ht⟩ => ((hind.mem_bucket key t).mp ht).1,
      fun ht => ⟨_, (hind.mem_bucket _ t).mpr ⟨ht, rfl⟩⟩⟩
  contains t := TupleStore.contains_iff
  scan bindings hlen := by
    obtain ⟨out, hscan, hnodup, hout⟩ := scan_faithful h hlen fun _ => faithful_of_scanIndex hf
    exact ⟨out, hscan, hnodup, hout⟩
  access bindings _ access haccess := lists_access h hf haccess
  visit bindings hlen := visit_spec h hf hlen
  lookup positions key hpos hkey := by
    obtain ⟨hsome, hnone⟩ := h.tupleForKey_spec hpos (findsKeys hf positions) hkey
    exact ⟨hsome, fun hn u hu heq => hnone hn u ⟨hu, heq⟩, tupleForProjectedKey_select hpos hkey⟩

theorem pairwise_finish (pairs : List (Tuple × Tuple)) :
    (sortDedup (pairs.map fun e => e.1 ++ e.2)).Pairwise (· < ·) := pairwise_sortDedup _

theorem mem_finish {pairs : List (Tuple × Tuple)} {w : Tuple} :
    w ∈ sortDedup (pairs.map fun e => e.1 ++ e.2) ↔ ∃ t u, (t, u) ∈ pairs ∧ w = t ++ u := by
  rw [mem_sortDedup, mem_map]
  constructor
  · rintro ⟨⟨t, u⟩, hmem, rfl⟩
    exact ⟨t, u, hmem, rfl⟩
  · rintro ⟨t, u, hmem, rfl⟩
    exact ⟨(t, u), hmem, rfl⟩

/-- **A join of states with faithful indexes is exact.** -/
theorem Valid.joinsExactly (h : state.Valid) (hr : right.Valid)
    (hf : state.metadata.FaithfulIndexes) (hfr : right.metadata.FaithfulIndexes) :
    state.JoinsExactly right := by
  intro leftBindings leftPositions rightBindings rightPositions hlen hlenr
  unfold joinEq
  rw [RelationMetadata.validateBindings_eq_ok.mpr hlen,
    RelationMetadata.validateBindings_eq_ok.mpr hlenr]
  dsimp only
  split
  · next hnat =>
    -- the key is the whole row on both sides
    obtain ⟨hl, hrr⟩ := Bool.and_eq_true_iff.mp hnat
    obtain rfl : leftPositions = List.range state.metadata.arity := beq_iff_eq.mp hl
    obtain rfl : rightPositions = List.range right.metadata.arity := beq_iff_eq.mp hrr
    refine ⟨_, rfl, fun out hout => ?_⟩
    obtain rfl := some.inj hout
    refine ⟨pairwise_finish _, fun w => mem_finish.trans ?_⟩
    simp only [mem_filter, TupleStore.mem_matchingRowPairs, Bool.and_eq_true]
    constructor
    · rintro ⟨t, u, ⟨⟨rfl, ht, hu⟩, htm, hum⟩, rfl⟩
      refine ⟨t, ht, t, hu, htm, hum, ?_, rfl⟩
      rw [select_range (h.length_eq t ht), select_range (hr.length_eq t hu)]
    · rintro ⟨t, ht, u, hu, htm, hum, hkey, rfl⟩
      rw [select_range (h.length_eq t ht), select_range (hr.length_eq u hu)] at hkey
      exact ⟨t, u, ⟨⟨hkey, ht, hu⟩, htm, hum⟩, rfl⟩
  · split
    · next leftIndex rightIndex hleft hright =>
      have hlmem : leftIndex ∈ state.indexes := mem_of_find?_eq_some hleft
      have hrmem : rightIndex ∈ right.indexes := mem_of_find?_eq_some hright
      obtain rfl : leftIndex.spec.positions = leftPositions := by simpa using find?_some hleft
      obtain rfl : rightIndex.spec.positions = rightPositions := by
        simpa using find?_some hright
      have hlind := h.indexes leftIndex hlmem (h.faithful hf hlmem)
      have hrind := hr.indexes rightIndex hrmem (hr.faithful hfr hrmem)
      refine ⟨_, rfl, fun out hout => ?_⟩
      obtain rfl := some.inj hout
      refine ⟨pairwise_finish _, fun w => mem_finish.trans ?_⟩
      simp only [TupleIndex.mem_matchingRowPairs]
      constructor
      · rintro ⟨t, u, ⟨⟨key, ht, hu⟩, htm, hum⟩, rfl⟩
        obtain ⟨ht, hkt⟩ := (hlind.mem_bucket key t).mp ht
        obtain ⟨hu, hku⟩ := (hrind.mem_bucket key u).mp hu
        exact ⟨t, ht, u, hu, htm, hum, keyFromValues_injective (hkt.trans hku.symm), rfl⟩
      · rintro ⟨t, ht, u, hu, htm, hum, hkey, rfl⟩
        refine ⟨t, u, ⟨⟨tupleKey leftIndex.spec.positions t, ?_, ?_⟩, htm, hum⟩, rfl⟩
        · exact (hlind.mem_bucket _ t).mpr ⟨ht, rfl⟩
        · exact (hrind.mem_bucket _ u).mpr ⟨hu, congrArg keyFromValues hkey.symm⟩
    · exact ⟨none, rfl, nofun⟩

/-! ## Lossy indexes -/

/-- **An index that lists a column twice loses a row**, in the history of two inserts. -/
theorem exists_not_agrees (haccepted : validateMetadata metadata = .ok ())
    {spec : TupleIndexSpec} (hspec : spec ∈ metadata.indexes)
    (hlost : ¬ spec.Faithful metadata.arity) :
    ∃ state : RelationState M, Reached metadata state ∧ ¬ state.Agrees := by
  obtain ⟨start, hempty⟩ := (empty_eq_ok (M := M)).mpr haccepted
  obtain ⟨hplen, q, hq, hmissing⟩ := TupleIndexSpec.exists_missing hlost
  have hbound := (validateMetadata_eq_ok.mp haccepted).1 spec hspec
  have hsecondary : spec ∈ metadata.secondaryIndexes := by
    refine mem_filter.mpr ⟨hspec, ?_⟩
    rw [Bool.not_eq_true', Bool.eq_false_iff]
    intro hnat
    have hrange : spec.positions = List.range metadata.arity := beq_iff_eq.mp hnat
    exact hlost fun _ => hrange ▸ nodup_range
  generalize ht : (List.replicate metadata.arity (Value.bool false) : Tuple) = t
  have htlen : t.length = metadata.arity := by rw [← ht, length_replicate]
  obtain ⟨hulen, htu, hkey⟩ := TupleIndexSpec.exists_same_key hbound hq hmissing htlen
  generalize t.set q (otherValue t[q]?) = u at hulen htu hkey
  have hreached := ((reached_empty hempty).insert htlen).insert hulen
  refine ⟨_, hreached, fun hagrees => ?_⟩
  have hindex : spec ∈ ((start.insert t).1.insert u).1.indexes.map TupleIndex.spec := by
    rwa [hreached.valid.specs, hreached.1]
  obtain ⟨index, hmem, hi⟩ := mem_map.mp hindex
  have hrow : t ∈ ((start.insert t).1.insert u).1.rows := by
    rw [insert_rows, insert_rows, SortedSet.mem_insert, SortedSet.mem_insert]
    exact .inr (.inl rfl)
  obtain ⟨key, hbucket⟩ := (hagrees.indexes index hmem t).mpr hrow
  exact notMem_bucket_insert_insert hempty htu hplen hkey hmem hi key hbucket

/-- **When the access paths of relations agree.**  Over every history of two relations all ways to
read each of them show its rows, and all joins of the two are exact, if and only if no index of
either lists a column twice while having as many positions as there are columns. -/
theorem access_paths_agree_iff (left right : RelationMetadata)
    (hleft : ∃ state, (empty left : Except KernelError (RelationState M)) = .ok state)
    (hright : ∃ state, (empty right : Except KernelError (RelationState M)) = .ok state) :
    (∀ l r : RelationState M, Reached left l → Reached right r →
      l.Agrees ∧ r.Agrees ∧ l.JoinsExactly r) ↔ left.FaithfulIndexes ∧ right.FaithfulIndexes := by
  constructor
  · intro hall
    obtain ⟨l, hl⟩ := hleft
    obtain ⟨r, hr⟩ := hright
    refine ⟨fun spec hspec => ?_, fun spec hspec => ?_⟩
    · by_contra hlost
      obtain ⟨state, hreached, hnot⟩ :=
        exists_not_agrees (M := M) (empty_eq_ok.mp ⟨l, hl⟩) hspec hlost
      exact hnot (hall state r hreached (reached_empty hr)).1
    · by_contra hlost
      obtain ⟨state, hreached, hnot⟩ :=
        exists_not_agrees (M := M) (empty_eq_ok.mp ⟨r, hr⟩) hspec hlost
      exact hnot (hall l state (reached_empty hl) hreached).2.1
  · rintro ⟨hfl, hfr⟩ l r hl hr
    have hvl := hl.valid
    have hvr := hr.valid
    obtain ⟨rfl, -⟩ := hl
    obtain ⟨rfl, -⟩ := hr
    exact ⟨hvl.agrees hfl, hvr.agrees hfr, hvl.joinsExactly hvr hfl hfr⟩

/-- Two columns, with an index on the second. -/
def bySecond : RelationMetadata :=
  { RelationMetadata.new (.ofByte 1) ⟨1⟩ 2 with indexes := [⟨[0, 1]⟩, ⟨[1]⟩] }

/-- Two columns, with an index that lists the first twice. -/
def firstTwice : RelationMetadata :=
  { RelationMetadata.new (.ofByte 2) ⟨2⟩ 2 with indexes := [⟨[0, 1]⟩, ⟨[0, 0]⟩] }

theorem access_paths_agree_iff_bySecond :
    (∀ l r : RelationState Entries, Reached bySecond l → Reached firstTwice r →
      l.Agrees ∧ r.Agrees ∧ l.JoinsExactly r) ↔
    bySecond.FaithfulIndexes ∧ firstTwice.FaithfulIndexes :=
  access_paths_agree_iff bySecond firstTwice (empty_eq_ok.mpr (by decide))
    (empty_eq_ok.mpr (by decide))

/-- The first row of a value in the first column is lost to a scan by that column, which the index
`[0, 0]` serves; the rows themselves still have it. -/
theorem first_row_lost : ∃ state : RelationState Entries, Reached firstTwice state ∧
    state.containsTuple [.bool true, .bool false] = true ∧
    state.scan [some (.bool true), none] = .ok [[.bool true, .bool true]] := by
  have hempty : empty firstTwice = .ok (⟨firstTwice, TupleStore.empty,
    [TupleIndex.empty ⟨[0, 0]⟩ 2]⟩ : RelationState Entries) := rfl
  refine ⟨_, ((reached_empty hempty).insert (t := [.bool true, .bool false]) rfl).insert
    (t := [.bool true, .bool true]) rfl, ?_, ?_⟩
  · decide +kernel
  · decide +kernel

end RelationState

end Mica
