import Mathlib.Data.List.Nodup
import Mica.Var.Tuple

/-!
# Kernel/PackedRelation — rows kept in columns, and the pairs of rows with equal keys

A packed relation keeps rows of immediate values column by column.  Two of them are joined on one
or two columns, either by an index over the right side (`executeNativeEqualityJoinMatches`) or by
an accelerator, whose answer is used when its pairs are in range and in order.  Both give exactly
the pairs of rows with equal keys (`native_matches`, `accelerated_matches`).
-/

open List
open Option (some.inj)

namespace Mica

/-- `Value::is_immediate`: the value is its own word. -/
def Value.isImmediate (v : Value) : Bool :=
  match v.raw with
  | .string _ | .bytes _ | .list _ | .map _ | .range _ _ | .error _ _ _ | .frob _ _
  | .relation _ _ => false
  | _ => true

/-! ## Packed relations -/

/-- **A packed relation**: rows of one arity, of immediate values. -/
structure PackedRelation where
  arity : ℕ
  rows : List Tuple
  arity_pos : 0 < arity
  length_eq : ∀ row ∈ rows, row.length = arity
  immediate : ∀ row ∈ rows, ∀ v ∈ row, v.isImmediate = true

namespace PackedRelation

/-- `PackedRelation::from_canonical_tuples`, which takes the rows as they come. -/
def fromCanonicalTuples (rows : List Tuple) (arity : ℕ) : Option PackedRelation :=
  if h : 0 < arity ∧ (∀ row ∈ rows, row.length = arity) ∧
      ∀ row ∈ rows, ∀ v ∈ row, v.isImmediate = true then
    some ⟨arity, rows, h.1, h.2.1, h.2.2⟩
  else none

theorem fromCanonicalTuples_eq_some {rows : List Tuple} {arity : ℕ} {packed : PackedRelation}
    (h : fromCanonicalTuples rows arity = some packed) :
    packed.rows = rows ∧ packed.arity = arity := by
  unfold fromCanonicalTuples at h
  split_ifs at h
  obtain rfl := some.inj h
  exact ⟨rfl, rfl⟩

/-- One column: the values that the rows push there. -/
def column (packed : PackedRelation) (position : ℕ) : List Value :=
  packed.rows.filterMap fun row => row[position]?

/-- `PackedRelation::columns`. -/
def columns (packed : PackedRelation) : List (List Value) :=
  (List.range packed.arity).map packed.column

/-- `PackedRelation::row_count`. -/
def rowCount (packed : PackedRelation) : ℕ := packed.rows.length

theorem column_eq (packed : PackedRelation) {position : ℕ} (h : position < packed.arity) :
    (packed.column position).map some = packed.rows.map fun row => row[position]? := by
  have hrows : ∀ rows : List Tuple, (∀ row ∈ rows, position < row.length) →
      (rows.filterMap fun row => row[position]?).map some = rows.map fun row => row[position]? := by
    intro rows hlen
    induction rows with
    | nil => rfl
    | cons row rows ih =>
      obtain ⟨hrow, hrest⟩ := forall_mem_cons.mp hlen
      rw [filterMap_cons, getElem?_eq_getElem hrow, map_cons, map_cons,
        ih hrest, getElem?_eq_getElem hrow]
  exact hrows packed.rows fun row hrow => packed.length_eq row hrow ▸ h

theorem getElem?_column (packed : PackedRelation) {position : ℕ} (h : position < packed.arity)
    (row : ℕ) : (packed.column position)[row]? = packed.rows[row]?.bind fun t => t[position]? := by
  have hget := congrArg (fun l : List (Option Value) => l[row]?) (packed.column_eq h)
  simp only [getElem?_map] at hget
  rcases hrow : packed.rows[row]? with _ | t
  · rw [hrow, Option.map_none, Option.map_eq_none_iff] at hget
    rw [hget, Option.bind_none]
  rw [hrow, Option.map_some] at hget
  obtain ⟨v, hv, ht⟩ := Option.map_eq_some_iff.mp hget
  rwa [hv, Option.bind_some]

theorem getElem?_columns (packed : PackedRelation) (position : ℕ) :
    packed.columns[position]? =
      if position < packed.arity then some (packed.column position) else none := by
  rw [columns, getElem?_map]
  split_ifs with h
  · rw [getElem?_range h, Option.map_some]
  · rw [getElem?_eq_none (by simpa using h), Option.map_none]

end PackedRelation

/-! ## Keys -/

inductive PackedKey where
  | one (value : Value)
  | two (first second : Value)
  deriving DecidableEq

/-- `packed_relation_key`. -/
def packedRelationKey (packed : PackedRelation) (row : ℕ) : List ℕ → Option PackedKey
  | [one] => (packed.columns[one]?.bind fun column => column[row]?).map .one
  | [one, two] =>
    (packed.columns[one]?.bind fun column => column[row]?).bind fun first =>
      (packed.columns[two]?.bind fun column => column[row]?).map fun second => .two first second
  | _ => none

/-- The values of a key. -/
def PackedKey.values : PackedKey → List Value
  | .one value => [value]
  | .two first second => [first, second]

theorem PackedKey.values_injective : Function.Injective PackedKey.values := by
  rintro (v | ⟨v, w⟩) (v' | ⟨v', w'⟩) h
  · exact congrArg PackedKey.one (List.cons.inj h).1
  · exact absurd (congrArg List.length h) (by simp [PackedKey.values])
  · exact absurd (congrArg List.length h) (by simp [PackedKey.values])
  · obtain ⟨rfl, htail⟩ := List.cons.inj h
    rw [(List.cons.inj htail).1]

/-- A key has one column or two. -/
def KeyPositions (positions : List ℕ) : Prop := positions.length = 1 ∨ positions.length = 2

instance (positions : List ℕ) : Decidable (KeyPositions positions) :=
  inferInstanceAs (Decidable (_ ∨ _))

/-- **The key of a row is what the row has at the positions.** -/
theorem packedRelationKey_eq {packed : PackedRelation} {row : ℕ} {t : Tuple}
    (hrow : packed.rows[row]? = some t) {positions : List ℕ} (hkey : KeyPositions positions)
    (hpos : ∀ p ∈ positions, p < packed.arity) :
    (packedRelationKey packed row positions).map PackedKey.values = some (t.select positions) := by
  have hlen : t.length = packed.arity := packed.length_eq t (mem_of_getElem? hrow)
  have hcell : ∀ p (hp : p < packed.arity),
      (packed.columns[p]?.bind fun column => column[row]?) = some (t.get ⟨p, hlen ▸ hp⟩) := by
    intro p hp
    rw [packed.getElem?_columns, if_pos hp, Option.bind_some, packed.getElem?_column hp, hrow,
      Option.bind_some, getElem?_eq_getElem (hlen ▸ hp), get_eq_getElem]
  rcases hkey with h | h
  · obtain ⟨p, rfl⟩ := length_eq_one_iff.mp h
    have hp := hpos p mem_cons_self
    rw [packedRelationKey, hcell p hp, Tuple.select_cons (hlen ▸ hp), Tuple.select_nil]
    rfl
  obtain ⟨p, q, rfl⟩ := length_eq_two.mp h
  have hp := hpos p mem_cons_self
  have hq := hpos q (mem_cons_of_mem _ mem_cons_self)
  rw [packedRelationKey, hcell p hp, hcell q hq, Tuple.select_cons (hlen ▸ hp),
    Tuple.select_cons (hlen ▸ hq), Tuple.select_nil]
  rfl

/-! ## Matches -/

structure EqualityJoinMatch where
  leftRow : ℕ
  rightRow : ℕ
  deriving DecidableEq

/-- **The pairs of rows with equal keys**, each once. -/
def JoinsRows (left right : List Tuple) (leftPositions rightPositions : List ℕ)
    (pairs : List EqualityJoinMatch) : Prop :=
  pairs.Nodup ∧ ∀ pair, pair ∈ pairs ↔ ∃ t u, left[pair.leftRow]? = some t ∧
    right[pair.rightRow]? = some u ∧ t.select leftPositions = u.select rightPositions

/-- The pairs of rows under one key; `right_index` has under a key the rows with the key, in order. -/
def keyPairs (leftKeys rightKeys : List PackedKey) : List EqualityJoinMatch :=
  leftKeys.zipIdx.flatMap fun leftKey =>
    (rightKeys.zipIdx.filter fun rightKey => rightKey.1 = leftKey.1).map fun rightKey =>
      ⟨leftKey.2, rightKey.2⟩

/-- `execute_native_equality_join_matches`. -/
def executeNativeEqualityJoinMatches (left right : PackedRelation)
    (leftPositions rightPositions : List ℕ) : Option (List EqualityJoinMatch) :=
  if leftPositions.length = rightPositions.length ∧ KeyPositions leftPositions then do
    let rightKeys ← (List.range right.rowCount).mapM fun row =>
      packedRelationKey right row rightPositions
    let leftKeys ← (List.range left.rowCount).mapM fun row =>
      packedRelationKey left row leftPositions
    some (keyPairs leftKeys rightKeys)
  else none

theorem mem_keyPairs {leftKeys rightKeys : List PackedKey} {pair : EqualityJoinMatch} :
    pair ∈ keyPairs leftKeys rightKeys ↔
      ∃ key, leftKeys[pair.leftRow]? = some key ∧ rightKeys[pair.rightRow]? = some key := by
  rw [keyPairs, mem_flatMap]
  constructor
  · rintro ⟨⟨key, l⟩, hl, hpair⟩
    obtain ⟨⟨key', r⟩, hr, rfl⟩ := mem_map.mp hpair
    obtain ⟨hr, heq⟩ := mem_filter.mp hr
    have hright : rightKeys[r]? = some key' := mem_zipIdx_iff_getElem?.mp hr
    rw [show key' = key from of_decide_eq_true heq] at hright
    exact ⟨key, mem_zipIdx_iff_getElem?.mp hl, hright⟩
  · rintro ⟨key, hl, hr⟩
    refine ⟨(key, pair.leftRow), mem_zipIdx_iff_getElem?.mpr hl, mem_map.mpr ?_⟩
    refine ⟨(key, pair.rightRow), mem_filter.mpr ⟨?_, decide_eq_true rfl⟩, rfl⟩
    exact mem_zipIdx_iff_getElem?.mpr hr

theorem nodup_keyPairs (leftKeys rightKeys : List PackedKey) :
    (keyPairs leftKeys rightKeys).Nodup := by
  have hsnd : ∀ keys : List PackedKey, (keys.zipIdx.map Prod.snd).Nodup := fun keys => by
    rw [zipIdx_map_snd]
    exact nodup_range'
  refine nodup_flatMap.mpr ⟨fun e _ => ?_, ?_⟩
  · have hright := (hsnd rightKeys).sublist
      ((filter_sublist (p := fun rightKey => decide (rightKey.1 = e.1))).map Prod.snd)
    refine List.Nodup.of_map EqualityJoinMatch.rightRow ?_
    rwa [map_map]
  refine (pairwise_map.mp (hsnd leftKeys)).imp fun {e f} hne => ?_
  refine disjoint_left.mpr fun pair hpair hpair' => hne ?_
  obtain ⟨_, _, rfl⟩ := mem_map.mp hpair
  obtain ⟨_, _, heq⟩ := mem_map.mp hpair'
  exact (EqualityJoinMatch.mk.inj heq).1.symm

theorem getElem?_keys {keys : List PackedKey} {rows : List Tuple} {positions : List ℕ}
    (h : keys.map PackedKey.values = rows.map fun t => t.select positions) {i : ℕ}
    {key : PackedKey} : keys[i]? = some key ↔
      ∃ t, rows[i]? = some t ∧ key.values = t.select positions := by
  have hget := congrArg (fun xs : List (List Value) => xs[i]?) h
  simp only [getElem?_map] at hget
  constructor
  · intro hk
    rw [hk, Option.map_some] at hget
    obtain ⟨t, ht, hsel⟩ := Option.map_eq_some_iff.mp hget.symm
    exact ⟨t, ht, hsel.symm⟩
  · rintro ⟨t, ht, hsel⟩
    rw [ht, Option.map_some] at hget
    obtain ⟨key', hk', hsel'⟩ := Option.map_eq_some_iff.mp hget
    rw [hk', PackedKey.values_injective (hsel'.trans hsel.symm)]

/-- The keys of all rows. -/
theorem mapM_packedRelationKey (packed : PackedRelation) {positions : List ℕ}
    (hkey : KeyPositions positions) (hpos : ∀ p ∈ positions, p < packed.arity) :
    ∃ keys, (List.range packed.rowCount).mapM (fun row => packedRelationKey packed row positions) =
        some keys ∧ keys.map PackedKey.values = packed.rows.map fun t => t.select positions := by
  have hall : ∀ rows : List ℕ, (∀ row ∈ rows, row < packed.rowCount) →
      ∃ keys, rows.mapM (fun row => packedRelationKey packed row positions) = some keys ∧
        (keys.map PackedKey.values).map some =
          rows.map fun row => packed.rows[row]?.map fun t => t.select positions := by
    intro rows hrows
    induction rows with
    | nil => exact ⟨[], rfl, rfl⟩
    | cons row rows ih =>
      obtain ⟨hrow, hrest⟩ := forall_mem_cons.mp hrows
      obtain ⟨keys, hkeys, hvalues⟩ := ih hrest
      have hget := packedRelationKey_eq (getElem?_eq_getElem hrow) hkey hpos
      obtain ⟨key, hk, hv⟩ := Option.map_eq_some_iff.mp hget
      refine ⟨key :: keys, ?_, ?_⟩
      · rw [mapM_cons, hk, hkeys]
        rfl
      · rw [map_cons, map_cons, map_cons, hvalues, hv,
          getElem?_eq_getElem hrow, Option.map_some]
  obtain ⟨keys, hkeys, hvalues⟩ := hall (List.range packed.rowCount) fun row hrow =>
    mem_range.mp hrow
  refine ⟨keys, hkeys, map_injective_iff.mpr (Option.some_injective _) (hvalues.trans ?_)⟩
  refine ext_getElem (by simp [PackedRelation.rowCount]) fun i hi hi' => ?_
  have hlt : i < packed.rows.length := by simpa using hi'
  simp [getElem?_eq_getElem hlt]

theorem native_matches {left right : PackedRelation} {leftPositions rightPositions : List ℕ}
    (hlen : leftPositions.length = rightPositions.length) (hkey : KeyPositions leftPositions)
    (hleft : ∀ p ∈ leftPositions, p < left.arity) (hright : ∀ p ∈ rightPositions, p < right.arity) :
    ∃ pairs, executeNativeEqualityJoinMatches left right leftPositions rightPositions = some pairs ∧
      JoinsRows left.rows right.rows leftPositions rightPositions pairs := by
  have hkey' : KeyPositions rightPositions := by rwa [KeyPositions, ← hlen]
  obtain ⟨leftKeys, hl, hlv⟩ := mapM_packedRelationKey left hkey hleft
  obtain ⟨rightKeys, hr, hrv⟩ := mapM_packedRelationKey right hkey' hright
  refine ⟨keyPairs leftKeys rightKeys, ?_, nodup_keyPairs _ _, fun pair => ?_⟩
  · rw [executeNativeEqualityJoinMatches, if_pos ⟨hlen, hkey⟩, hr, hl]
    rfl
  rw [mem_keyPairs]
  constructor
  · rintro ⟨key, hleftKey, hrightKey⟩
    obtain ⟨t, ht, hsel⟩ := (getElem?_keys hlv).mp hleftKey
    obtain ⟨u, hu, hsel'⟩ := (getElem?_keys hrv).mp hrightKey
    exact ⟨t, u, ht, hu, hsel.symm.trans hsel'⟩
  · rintro ⟨t, u, ht, hu, hsel⟩
    obtain ⟨key, hk, hv⟩ := Option.map_eq_some_iff.mp (packedRelationKey_eq ht hkey hleft)
    exact ⟨key, (getElem?_keys hlv).mpr ⟨t, ht, hv⟩,
      (getElem?_keys hrv).mpr ⟨u, hu, hv.trans hsel⟩⟩

/-! ## Accelerators -/

inductive AccelerationOutcome where
  | completed (pairs : List EqualityJoinMatch)
  | declined

/-- `RelationAccelerator::join_equality`, over the key columns of the two sides. -/
abbrev RelationAccelerator := List (List Value) → List (List Value) → AccelerationOutcome

structure ExecutionContext where
  accelerator : Option RelationAccelerator
  weightedJoinAcceleration : Bool

/-- `ExecutionContext::serial`. -/
def ExecutionContext.serial : ExecutionContext := ⟨none, false⟩

/-- `ExecutionContext::accelerates_weighted_joins`. -/
def ExecutionContext.acceleratesWeightedJoins (context : ExecutionContext) : Bool :=
  context.weightedJoinAcceleration && context.accelerator.isSome

/-- What the trait asks of an accelerator: given one or two key columns a side, of one length a
side, a completed join has the pairs of rows with equal keys. -/
def RelationAccelerator.Correct (accelerator : RelationAccelerator) : Prop :=
  ∀ left right pairs, accelerator left right = .completed pairs →
    left.length = right.length → (left.length = 1 ∨ left.length = 2) →
    (∃ n, ∀ column ∈ left, column.length = n) → (∃ n, ∀ column ∈ right, column.length = n) →
    ∀ pair : EqualityJoinMatch, pair ∈ pairs ↔ ∃ key : List Value,
      left.map (fun column => column[pair.leftRow]?) = key.map some ∧
      right.map (fun column => column[pair.rightRow]?) = key.map some

/-- Every accelerator of a context is correct. -/
def ExecutionContext.Correct (context : ExecutionContext) : Prop :=
  ∀ accelerator ∈ context.accelerator, accelerator.Correct

theorem ExecutionContext.serial_correct : ExecutionContext.serial.Correct := nofun

/-- The order of pairs: by left row, then by right row. -/
def EqualityJoinMatch.before (pair other : EqualityJoinMatch) : Bool :=
  decide (pair.leftRow < other.leftRow) ||
    pair.leftRow == other.leftRow && decide (pair.rightRow < other.rightRow)

def ascending : List EqualityJoinMatch → Bool
  | pair :: other :: pairs => pair.before other && ascending (other :: pairs)
  | _ => true

/-- `equality_join_matches_are_valid`. -/
def equalityJoinMatchesAreValid (pairs : List EqualityJoinMatch) (leftRows rightRows : ℕ) : Bool :=
  pairs.all (fun pair => decide (pair.leftRow < leftRows) && decide (pair.rightRow < rightRows)) &&
    ascending pairs

theorem EqualityJoinMatch.before_iff {pair other : EqualityJoinMatch} : pair.before other = true ↔
    pair.leftRow < other.leftRow ∨
      pair.leftRow = other.leftRow ∧ pair.rightRow < other.rightRow := by
  simp [before]

theorem pairwise_of_ascending : ∀ {pairs : List EqualityJoinMatch}, ascending pairs = true →
    pairs.Pairwise fun pair other => pair.before other = true
  | [], _ => List.Pairwise.nil
  | [pair], _ => pairwise_singleton _ _
  | pair :: other :: pairs, h => by
    obtain ⟨hfirst, hrest⟩ := Bool.and_eq_true_iff.mp h
    have htail := pairwise_of_ascending hrest
    refine pairwise_cons.mpr ⟨forall_mem_cons.mpr ⟨hfirst, fun third hthird => ?_⟩, htail⟩
    have hsecond := (pairwise_cons.mp htail).1 third hthird
    rw [EqualityJoinMatch.before_iff] at hfirst hsecond ⊢
    omega

variable {pairs : List EqualityJoinMatch}

theorem nodup_of_ascending (h : ascending pairs = true) :
    pairs.Nodup := by
  refine (pairwise_of_ascending h).imp fun {pair other} hbefore heq => ?_
  rw [EqualityJoinMatch.before_iff, heq] at hbefore
  omega

/-- `DIFFERENTIAL_EQUALITY_JOIN_ROW_THRESHOLD`. -/
def differentialEqualityJoinRowThreshold : ℕ := 262144

/-- `DIFFERENTIAL_EQUALITY_JOIN_MIN_DELTA_ROWS`. -/
def differentialEqualityJoinMinDeltaRows : ℕ := 4096

/-- `differential_equality_join_eligible`. -/
def differentialEqualityJoinEligible (deltaRows fullRows : ℕ) : Bool :=
  decide (differentialEqualityJoinMinDeltaRows ≤ deltaRows) &&
    decide (differentialEqualityJoinRowThreshold ≤ deltaRows + fullRows)

/-- The key columns of a packed relation. -/
def keyColumns (packed : PackedRelation) (positions : List ℕ) : Option (List (List Value)) :=
  positions.mapM fun position => packed.columns[position]?

/-- `execute_differential_equality_join`. -/
def executeDifferentialEqualityJoin (delta full : PackedRelation)
    (deltaPositions fullPositions : List ℕ) (context : ExecutionContext) :
    Option (List EqualityJoinMatch) :=
  if deltaPositions.length = fullPositions.length ∧ KeyPositions deltaPositions ∧
      differentialEqualityJoinEligible delta.rowCount full.rowCount = true then do
    let accelerator ← context.accelerator
    let deltaColumns ← keyColumns delta deltaPositions
    let fullColumns ← keyColumns full fullPositions
    match accelerator deltaColumns fullColumns with
    | .completed pairs =>
      if equalityJoinMatchesAreValid pairs delta.rowCount full.rowCount then some pairs else none
    | .declined => none
  else none

theorem keyColumns_spec (packed : PackedRelation) : ∀ {positions : List ℕ}
    {columns : List (List Value)}, keyColumns packed positions = some columns →
      columns.length = positions.length ∧ (∀ column ∈ columns, column.length = packed.rowCount) ∧
      ∀ (row : ℕ) (t : Tuple), packed.rows[row]? = some t →
        columns.map (fun column => column[row]?) = (t.select positions).map some
  | [], columns, h => by
    obtain rfl := some.inj h
    exact ⟨rfl, nofun, fun _ _ _ => rfl⟩
  | position :: positions, columns, h => by
    rw [keyColumns, mapM_cons] at h
    obtain ⟨column, hcolumn, h⟩ := Option.bind_eq_some_iff.mp h
    obtain ⟨rest, hrest, h⟩ := Option.bind_eq_some_iff.mp h
    obtain rfl := some.inj h
    obtain ⟨hlen, hcols, hkey⟩ := keyColumns_spec packed hrest
    rw [packed.getElem?_columns] at hcolumn
    split_ifs at hcolumn with hpos
    obtain rfl := some.inj hcolumn
    refine ⟨congrArg Nat.succ hlen, forall_mem_cons.mpr ⟨?_, hcols⟩, fun row t hrow => ?_⟩
    · have hmap := congrArg List.length (packed.column_eq hpos)
      rwa [length_map, length_map] at hmap
    · have hlt : position < t.length :=
        packed.length_eq t (mem_of_getElem? hrow) ▸ hpos
      rw [map_cons, hkey row t hrow, packed.getElem?_column hpos, hrow,
        Tuple.select_cons hlt, map_cons, Option.bind_some, getElem?_eq_getElem hlt]

/-- A completed join whose pairs are in range and in order has the pairs of rows with equal keys. -/
theorem completed_matches {left right : PackedRelation} {leftPositions rightPositions : List ℕ}
    {accelerator : RelationAccelerator} (haccelerator : accelerator.Correct)
    (hlen : leftPositions.length = rightPositions.length) (hkey : KeyPositions leftPositions)
    {leftColumns rightColumns : List (List Value)}
    (hleft : keyColumns left leftPositions = some leftColumns)
    (hright : keyColumns right rightPositions = some rightColumns)
    (hrun : accelerator leftColumns rightColumns = .completed pairs)
    (hvalid : equalityJoinMatchesAreValid pairs left.rowCount right.rowCount = true) :
    JoinsRows left.rows right.rows leftPositions rightPositions pairs := by
  obtain ⟨hllen, hlcols, hlkey⟩ := keyColumns_spec left hleft
  obtain ⟨hrlen, hrcols, hrkey⟩ := keyColumns_spec right hright
  obtain ⟨hrange, hascending⟩ := Bool.and_eq_true_iff.mp hvalid
  have hmem := haccelerator leftColumns rightColumns _ hrun
    (hllen.trans (hlen.trans hrlen.symm)) (by rw [hllen]; exact hkey) ⟨_, hlcols⟩ ⟨_, hrcols⟩
  refine ⟨nodup_of_ascending hascending, fun pair => ⟨fun hpair => ?_, ?_⟩⟩
  · have hin := all_eq_true.mp hrange pair hpair
    simp only [Bool.and_eq_true, decide_eq_true_eq] at hin
    obtain ⟨key, hl, hr⟩ := (hmem pair).mp hpair
    have ht := hlkey _ _ (getElem?_eq_getElem hin.1)
    have hu := hrkey _ _ (getElem?_eq_getElem hin.2)
    refine ⟨_, _, getElem?_eq_getElem hin.1, getElem?_eq_getElem hin.2, ?_⟩
    exact map_injective_iff.mpr (Option.some_injective _)
      (ht.symm.trans (hl.trans (hr.symm.trans hu)))
  · rintro ⟨t, u, ht, hu, hsel⟩
    refine (hmem pair).mpr ⟨t.select leftPositions, hlkey _ _ ht, ?_⟩
    rw [hrkey _ _ hu, hsel]

theorem accelerated_matches {delta full : PackedRelation} {deltaPositions fullPositions : List ℕ}
    {context : ExecutionContext} (hcontext : context.Correct)
    (h : executeDifferentialEqualityJoin delta full deltaPositions fullPositions context =
      some pairs) : JoinsRows delta.rows full.rows deltaPositions fullPositions pairs := by
  unfold executeDifferentialEqualityJoin at h
  split_ifs at h with hplan
  obtain ⟨hlen, hkey, -⟩ := hplan
  obtain ⟨accelerator, haccelerator, h⟩ := Option.bind_eq_some_iff.mp h
  obtain ⟨deltaColumns, hdelta, h⟩ := Option.bind_eq_some_iff.mp h
  obtain ⟨fullColumns, hfull, h⟩ := Option.bind_eq_some_iff.mp h
  cases hrun : accelerator deltaColumns fullColumns with
  | declined => rw [hrun] at h; exact nomatch h
  | completed found =>
    rw [hrun] at h
    dsimp only at h
    split_ifs at h with hvalid
    obtain rfl := some.inj h
    exact completed_matches (hcontext accelerator haccelerator) hlen hkey hdelta hfull hrun hvalid

end Mica
