import Mica.Kernel.RowAlgebra
import Mica.Kernel.TupleIndex
import Mica.Lib.NamedRows
import Mica.Var.Construct
import Mathlib.Data.List.Dedup

/-!
# Kernel/RelationAlgebra — projection, union, difference and natural join of relation values

A relation value keeps its columns in one order and its rows sorted.  Read by column names it is a
table (`RelationValue.table`), and two values with the same table are the same value; so what the
operations do is said once, in terms of tables, and the laws of set theory come back as equations
between values.

* `new_table` — the value that is built from a heading and rows in any order.
* `relationAlgebra_exact` — the four operations on tables, and their laws.
-/

open OrderCode SortedList List

namespace Mica

inductive RelationAlgebraError where
  | unknownColumn (column : Symbol)
  | headingMismatch (left right : List Symbol)
  | invalidRelation (error : RelationValueError)
  deriving DecidableEq

/-- `column_position`: the heading is sorted, so the search finds the one place there is. -/
def RelationValue.columnPosition (r : RelationValue) (column : Symbol) : Option ℕ :=
  r.heading.idxOf? column

/-! ## Joining rows -/

/-- Whether no keyed row comes at or before the one in front of it. -/
def keyedRowsAscend : List (Bytes × Tuple) → Bool
  | e :: f :: es =>
    (compare e.1 f.1 == .lt || compare e.1 f.1 == .eq && decide (e.2 < f.2)) &&
      keyedRowsAscend (f :: es)
  | _ => true

/-- `ProjectedTupleIndex::from_rows`: the rows under their keys. -/
def projectedTupleIndex {M : Type → Type} [ByteMap M] (rows : List Tuple) (positions : List ℕ) :
    M (List Tuple) :=
  let keyedRows := rows.map fun row => (tupleKey positions row, row)
  let keyedRows :=
    if keyedRowsAscend keyedRows then keyedRows else keyedRows.insertionSort TupleIndex.KeyedLe
  ByteMap.insertAll ((TupleIndex.groupKeyed keyedRows).map fun g => (g.1, dedupAdjacent g.2))
    ByteMap.empty

/-- `matching_row_pairs`. -/
def matchingRowPairs {M : Type → Type} [ByteMap M] (left right : M (List Tuple)) :
    List (Tuple × Tuple) :=
  (ByteMap.intersectValues left right).flatMap fun b =>
    b.1.flatMap fun t => b.2.map fun u => (t, u)

/-- `join_tuple_rows_with`; the indexes are of the kind `M`. -/
def joinTupleRowsWith (M : Type → Type) [ByteMap M] (leftRows rightRows : List Tuple)
    (leftPositions rightPositions : List ℕ) (combine : Tuple → Tuple → Tuple) : List Tuple :=
  if leftPositions.isEmpty then
    finishTupleRows (leftRows.flatMap fun left => rightRows.map fun right => combine left right)
  else
    finishTupleRows ((matchingRowPairs (projectedTupleIndex leftRows leftPositions : M (List Tuple))
      (projectedTupleIndex rightRows rightPositions)).map fun pair => combine pair.1 pair.2)

namespace RelationValue

/-! ## The operations -/

/-- The position of a column that has to be there. -/
def requireColumn (relation : RelationValue) (column : Symbol) : Except RelationAlgebraError ℕ :=
  match relation.columnPosition column with
  | some position => .ok position
  | none => .error (.unknownColumn column)

/-- `project`. -/
def project (relation : RelationValue) (columns : List Symbol) :
    Except RelationAlgebraError RelationValue :=
  match columns.mapM relation.requireColumn with
  | .error e => .error e
  | .ok positions =>
    (new columns (projectTupleRows relation.rows positions)).mapError .invalidRelation

/-- `require_same_heading`. -/
def requireSameHeading (left right : RelationValue) : Except RelationAlgebraError Unit :=
  if left.heading = right.heading then .ok ()
  else .error (.headingMismatch left.heading right.heading)

/-- `rebuild_with_heading`. -/
def rebuildWithHeading (relation : RelationValue) (rows : List Tuple) :
    Except RelationAlgebraError RelationValue :=
  (new relation.heading rows).mapError .invalidRelation

/-- `union`. -/
def union (left right : RelationValue) : Except RelationAlgebraError RelationValue :=
  match requireSameHeading left right with
  | .error e => .error e
  | .ok () => left.rebuildWithHeading (unionOrderedTupleRows left.rows right.rows)

/-- `difference`. -/
def difference (left right : RelationValue) : Except RelationAlgebraError RelationValue :=
  match requireSameHeading left right with
  | .error e => .error e
  | .ok () => left.rebuildWithHeading (differenceOrderedTupleRows left.rows right.rows)

/-- The positions of the shared columns, left and right. -/
def sharedPositions (left right : RelationValue) : List (ℕ × ℕ) :=
  left.heading.zipIdx.filterMap fun column =>
    (right.columnPosition column.1).map fun position => (column.2, position)

/-- The positions of the columns that only the right side has. -/
def rightOnlyPositions (left right : RelationValue) : List ℕ :=
  (right.heading.zipIdx.filter fun column => (left.columnPosition column.1).isNone).map Prod.snd

/-- `natural_join`. -/
def naturalJoin (M : Type → Type) [ByteMap M] (left right : RelationValue) :
    Except RelationAlgebraError RelationValue :=
  let shared := left.sharedPositions right
  let rightOnly := left.rightOnlyPositions right
  let heading := left.heading ++ rightOnly.filterMap fun position => right.heading[position]?
  let rows := joinTupleRowsWith M left.rows right.rows (shared.map Prod.fst) (shared.map Prod.snd)
    fun left right => left ++ right.select rightOnly
  (new heading rows).mapError .invalidRelation

end RelationValue

/-! ## The rows of a join -/

theorem keysOrdered_of_keyedRowsAscend : ∀ {es : List (Bytes × Tuple)},
    keyedRowsAscend es = true → TupleIndex.keysOrdered es = true
  | [], _ => rfl
  | [_], _ => rfl
  | e :: f :: es, h => by
    rw [keyedRowsAscend, Bool.and_eq_true, Bool.or_eq_true, Bool.and_eq_true, beq_iff_eq,
      beq_iff_eq] at h
    rw [TupleIndex.keysOrdered, keysOrdered_of_keyedRowsAscend h.2]
    rcases h.1 with hlt | ⟨heq, -⟩
    · rw [hlt]
      rfl
    · rw [heq]
      rfl

/-- The rows under a key. -/
theorem mem_projectedTupleIndex {M : Type → Type} [ByteMap M] {rows : List Tuple}
    {positions : List ℕ} {key : Bytes} {t : Tuple} :
    (∃ bucket, ByteMap.get key (projectedTupleIndex rows positions : M (List Tuple)) = some bucket ∧
      t ∈ bucket) ↔ t ∈ rows ∧ tupleKey positions t = key := by
  unfold projectedTupleIndex
  dsimp only
  generalize hes : (if keyedRowsAscend (rows.map fun row => (tupleKey positions row, row)) then
    rows.map fun row => (tupleKey positions row, row)
    else (rows.map fun row => (tupleKey positions row, row)).insertionSort TupleIndex.KeyedLe) = es
  have hsorted : es.Pairwise fun e f => (compare e.1 f.1).isLE = true := by
    subst hes
    split
    · next h => exact TupleIndex.pairwise_of_keysOrdered (keysOrdered_of_keyedRowsAscend h)
    · exact TupleIndex.pairwise_insertionSort_keyedLe _
  have hmem : (key, t) ∈ es ↔ t ∈ rows ∧ tupleKey positions t = key := by
    have hmap : (key, t) ∈ rows.map (fun row => (tupleKey positions row, row)) ↔
        t ∈ rows ∧ tupleKey positions t = key := by
      simp only [mem_map, Prod.mk.injEq]
      constructor
      · rintro ⟨u, hu, hkey, rfl⟩
        exact ⟨hu, hkey⟩
      · rintro ⟨hu, hkey⟩
        exact ⟨t, hu, hkey, rfl⟩
    subst hes
    split
    · exact hmap
    · exact (mem_insertionSort _).trans hmap
  have hnodup : (((TupleIndex.groupKeyed es).map fun g => (g.1, dedupAdjacent g.2)).map
      Prod.fst).Nodup := by
    rw [map_map]
    exact pairwise_map.mpr
      ((TupleIndex.pairwise_groupKeyed hsorted).imp Entries.ne_of_compare_lt)
  simp only [ByteMap.get_eq_some, ByteMap.mem_insertAll hnodup, ByteMap.entries_empty,
    not_mem_nil, and_false, or_false]
  rw [← hmem, TupleIndex.mem_groupKeyed]
  constructor
  · rintro ⟨bucket, hbucket, ht⟩
    obtain ⟨g, hg, heq⟩ := mem_map.mp hbucket
    obtain ⟨rfl, rfl⟩ := Prod.mk.inj heq
    exact ⟨g, hg, rfl, mem_dedupAdjacent.mp ht⟩
  · rintro ⟨g, hg, rfl, ht⟩
    exact ⟨_, mem_map_of_mem hg, mem_dedupAdjacent.mpr ht⟩

theorem mem_matchingRowPairs {M : Type → Type} [ByteMap M] {left right : List Tuple}
    {leftPositions rightPositions : List ℕ} {t u : Tuple} :
    (t, u) ∈ matchingRowPairs (projectedTupleIndex left leftPositions : M (List Tuple))
        (projectedTupleIndex right rightPositions) ↔
      t ∈ left ∧ u ∈ right ∧ t.select leftPositions = u.select rightPositions := by
  have hkeys : tupleKey leftPositions t = tupleKey rightPositions u ↔
      t.select leftPositions = u.select rightPositions := keyFromValues_injective.eq_iff
  simp only [matchingRowPairs, mem_flatMap, mem_map, Prod.mk.injEq]
  constructor
  · rintro ⟨⟨ts, us⟩, hpair, t', ht, u', hu, rfl, rfl⟩
    obtain ⟨key, hts, hus⟩ := ByteMap.mem_intersectValues.mp hpair
    obtain ⟨hleft, hkt⟩ := mem_projectedTupleIndex.mp ⟨ts, hts, ht⟩
    obtain ⟨hright, hku⟩ := mem_projectedTupleIndex.mp ⟨us, hus, hu⟩
    exact ⟨hleft, hright, hkeys.mp (hkt.trans hku.symm)⟩
  · rintro ⟨hleft, hright, hselect⟩
    obtain ⟨ts, hts, ht⟩ := mem_projectedTupleIndex (M := M).mpr ⟨hleft, rfl⟩
    obtain ⟨us, hus, hu⟩ := mem_projectedTupleIndex (M := M).mpr ⟨hright, (hkeys.mpr hselect).symm⟩
    exact ⟨(ts, us), ByteMap.mem_intersectValues.mpr ⟨_, hts, hus⟩, t, ht, u, hu, rfl, rfl⟩

/-- **Joined rows** are the pairs that agree at the positions, combined. -/
theorem mem_joinTupleRowsWith {M : Type → Type} [ByteMap M] {leftRows rightRows : List Tuple}
    {leftPositions rightPositions : List ℕ} (hlen : leftPositions.length = rightPositions.length)
    {combine : Tuple → Tuple → Tuple} {w : Tuple} :
    w ∈ joinTupleRowsWith M leftRows rightRows leftPositions rightPositions combine ↔
      ∃ t ∈ leftRows, ∃ u ∈ rightRows,
        t.select leftPositions = u.select rightPositions ∧ combine t u = w := by
  unfold joinTupleRowsWith
  split
  · next hempty =>
    rw [List.isEmpty_iff] at hempty
    subst hempty
    rw [eq_nil_of_length_eq_zero hlen.symm]
    simp [finishTupleRows, Tuple.select_nil]
  simp only [finishTupleRows, mem_sortDedup, mem_map, Prod.exists, mem_matchingRowPairs]
  constructor
  · rintro ⟨t, u, ⟨ht, hu, hselect⟩, rfl⟩
    exact ⟨t, ht, u, hu, hselect, rfl⟩
  · rintro ⟨t, ht, u, hu, hselect, rfl⟩
    exact ⟨t, u, ⟨ht, hu, hselect⟩, rfl⟩

/-! ## Rows by column names -/

/-- The cells of a row under a heading. -/
def cells (heading : List Symbol) (row : Tuple) : NamedRow Symbol Value :=
  fun column => (heading.idxOf? column).bind fun p => row[p]?

/-- The columns of a heading, without their order. -/
def columnSet (heading : List Symbol) : Set Symbol := {column | column ∈ heading}

section Cells

variable {heading : List Symbol} {row row' : Tuple} {column : Symbol}

theorem mem_columnSet : column ∈ columnSet heading ↔ column ∈ heading := Iff.rfl

theorem cells_cons {v : Value} (c : Symbol) :
    cells (c :: heading) (v :: row) column = if c =
      column then some v else cells heading row column := by
  rw [cells, idxOf?_cons]
  by_cases h : c = column
  · simp [h]
  · simp [h, cells, Option.bind_map]

theorem cells_eq_none (h : column ∉ heading) : cells heading row column = none := by
  rw [cells, idxOf?_eq_none_iff.mpr h]
  rfl

/-- The cell of a column is where the column is. -/
theorem cells_of_getElem? : ∀ {heading : List Symbol} {row : Tuple} {p : ℕ}, heading.Nodup →
    row.length = heading.length → heading[p]? = some column → cells heading row column = row[p]?
  | [], _, _, _, _, h => by simp at h
  | c :: heading, v :: row, 0, _, _, h => by
    obtain rfl : c = column := by simpa using h
    rw [cells_cons, if_pos rfl]
    rfl
  | c :: heading, v :: row, p + 1, hnodup, hlen, h => by
    obtain ⟨hc, hnodup⟩ := nodup_cons.mp hnodup
    have h : heading[p]? = some column := h
    have hne : c ≠ column := fun heq => hc (heq ▸ mem_of_getElem? h)
    rw [cells_cons, if_neg hne, cells_of_getElem? hnodup (Nat.succ.inj hlen) h]
    rfl

theorem over_cells (hlen : row.length = heading.length) :
    (cells heading row).Over (columnSet heading) := by
  intro c
  by_cases hc : c ∈ heading
  · obtain ⟨p, hp⟩ := Option.isSome_iff_exists.mp (isSome_idxOf?.mpr hc)
    have hlt : p < row.length := hlen ▸ (idxOf?_eq_some_iff.mp hp).1
    rw [cells, hp, Option.bind_some, getElem?_eq_getElem hlt]
    exact iff_of_true rfl hc
  · rw [cells_eq_none hc]
    exact iff_of_false nofun hc

/-- Rows of one heading with the same cells are the same. -/
theorem cells_injective (hnodup : heading.Nodup) (hlen : row.length = heading.length)
    (hlen' : row'.length = heading.length) (h : cells heading row = cells heading row') :
    row = row' := by
  refine ext_getElem? fun p => ?_
  rcases lt_or_ge p heading.length with hp | hp
  · have hget : heading[p]? = some heading[p] := getElem?_eq_getElem hp
    rw [← cells_of_getElem? hnodup hlen hget, h, cells_of_getElem? hnodup hlen' hget]
  · rw [getElem?_eq_none (hlen ▸ hp), getElem?_eq_none (hlen' ▸ hp)]

/-- **Picking columns restricts the row.** -/
theorem cells_select (hnodup : heading.Nodup) (hlen : row.length = heading.length) :
    ∀ {positions : List ℕ}, (∀ p ∈ positions, p < heading.length) →
      cells (positions.filterMap fun p => heading[p]?) (row.select positions) =
        NamedRow.restrict (columnSet (positions.filterMap fun p => heading[p]?))
          (cells heading row)
  | [], _ => by
    funext c
    rw [NamedRow.restrict_of_notMem (by simp [mem_columnSet])]
    exact cells_eq_none (by simp)
  | p :: positions, hp => by
    obtain ⟨hp, hps⟩ := forall_mem_cons.mp hp
    have hget : heading[p]? = some heading[p] := getElem?_eq_getElem hp
    have ih := cells_select hnodup hlen hps
    funext c
    rw [Tuple.select_cons (hlen ▸ hp), filterMap_cons, hget]
    dsimp only
    rw [cells_cons, ih]
    by_cases hc : heading[p] = c
    · rw [if_pos hc, NamedRow.restrict_of_mem (mem_columnSet.mpr (by simp [hc])),
        cells_of_getElem? hnodup hlen (hc ▸ hget), getElem?_eq_getElem (hlen ▸ hp)]
    rw [if_neg hc]
    by_cases hmem : c ∈ positions.filterMap fun p => heading[p]?
    · rw [NamedRow.restrict_of_mem (mem_columnSet.mpr hmem),
        NamedRow.restrict_of_mem (mem_columnSet.mpr (mem_cons_of_mem _ hmem))]
    · rw [NamedRow.restrict_of_notMem (mt mem_columnSet.mp hmem), NamedRow.restrict_of_notMem]
      exact fun h => (mem_cons.mp h).elim (fun heq => hc heq.symm) hmem

/-- Cells of a row put before another. -/
theorem cells_append {heading' : List Symbol} : ∀ {heading : List Symbol} {row : Tuple},
    row.length = heading.length → cells (heading ++ heading') (row ++ row') column =
      if column ∈ heading then cells heading row column else cells heading' row' column
  | [], [], _ => by simp
  | c :: heading, v :: row, hlen => by
    rw [cons_append, cons_append, cells_cons, cells_cons,
      cells_append (Nat.succ.inj hlen)]
    by_cases hc : c = column
    · simp [hc]
    · simp [hc, Ne.symm hc]

end Cells

namespace RelationValue

/-! ## Relations as tables -/

/-- The table that a heading and rows describe, in whatever order they are written. -/
def writtenTable (heading : List Symbol) (rows : List Tuple)
    (hlen : ∀ row ∈ rows, row.length = heading.length) : NamedTable Symbol Value where
  heading := columnSet heading
  rows := cells heading '' {row | row ∈ rows}
  covers := by
    rintro _ ⟨row, hrow, rfl⟩
    exact over_cells (hlen row hrow)

/-- **What a relation value says.** -/
def table (r : RelationValue) : NamedTable Symbol Value := writtenTable r.heading r.rows r.row_arity

theorem nodup_heading (r : RelationValue) : r.heading.Nodup := r.heading_sorted.imp ne_of_lt

variable {r : RelationValue}

theorem heading_eq_iff {s : RelationValue} :
    r.table.heading = s.table.heading ↔ r.heading = s.heading := by
  refine ⟨fun h => ?_, fun h => congrArg columnSet h⟩
  refine SortedList.eq_of_mem_iff r.heading_sorted s.heading_sorted fun c => ?_
  exact Set.ext_iff.mp h c

/-- **Relation values are canonical**: the table determines the value. -/
theorem table_injective : Function.Injective table := by
  intro r s h
  have hheading : r.heading = s.heading := heading_eq_iff.mp (congrArg NamedTable.heading h)
  have hsub : ∀ {r s : RelationValue}, r.heading = s.heading → r.table.rows = s.table.rows →
      ∀ row ∈ r.rows, row ∈ s.rows := by
    intro r s hheading hrows row hrow
    have hmem : cells r.heading row ∈ s.table.rows := hrows ▸ Set.mem_image_of_mem _ hrow
    obtain ⟨row', hrow', heq⟩ := hmem
    have hlen := s.row_arity row' hrow'
    rw [← hheading] at heq hlen
    exact cells_injective r.nodup_heading hlen (r.row_arity row hrow) heq ▸ hrow'
  have hrows : r.rows = s.rows := by
    have hset := congrArg NamedTable.rows h
    refine SortedList.eq_of_mem_iff r.rows_sorted s.rows_sorted fun row => ?_
    exact ⟨hsub hheading hset row, hsub hheading.symm hset.symm row⟩
  cases r
  cases s
  dsimp only at hheading hrows
  subst hheading hrows
  rfl

theorem alignRows_eq_ok {arity : ℕ} {order : List ℕ} : ∀ {rows : List Tuple},
    (∀ row ∈ rows, row.length = arity) →
      alignRows arity order rows = .ok (rows.map fun row => row.select order)
  | [], _ => rfl
  | row :: rows, h => by
    obtain ⟨hrow, hrows⟩ := forall_mem_cons.mp h
    rw [alignRows, if_pos hrow, alignRows_eq_ok hrows]
    rfl

theorem length_of_alignRows {arity : ℕ} {order : List ℕ} : ∀ {rows aligned : List Tuple},
    alignRows arity order rows = .ok aligned → ∀ row ∈ rows, row.length = arity
  | [], _, _ => fun _ h => absurd h not_mem_nil
  | row :: rows, aligned, h => by
    rw [alignRows] at h
    split at h
    · next hrow =>
      refine forall_mem_cons.mpr ⟨hrow, ?_⟩
      rcases hrec : alignRows arity order rows with _ | rest
      · cases hrec ▸ h
      exact length_of_alignRows hrec
    · cases h

variable {heading : List Symbol} {rows : List Tuple}

/-- **What is built of a heading and rows**: columns in order, and the rows in that order of
columns. -/
theorem of_new_eq_ok (h : new heading rows = .ok r) :
    r.heading = (columnOrder heading).map Prod.fst ∧
      r.rows = sortDedup (rows.map fun row => row.select ((columnOrder heading).map Prod.snd)) ∧
      ∀ row ∈ rows, row.length = heading.length := by
  unfold new at h
  split at h
  · dsimp only at h
    split at h
    · cases h
    split at h
    · cases h
    next aligned halign =>
    have hlen := length_of_alignRows halign
    obtain rfl := Except.ok.inj ((alignRows_eq_ok hlen).symm.trans halign)
    obtain rfl := Except.ok.inj h
    exact ⟨rfl, canonicalRows_eq _, hlen⟩
  · cases h

/-- Columns with their positions are found again. -/
theorem filterMap_positions : ∀ {order : List (Symbol × ℕ)},
    (∀ e ∈ order, e ∈ heading.zipIdx) →
      ((order.map Prod.snd).filterMap fun p => heading[p]?) = order.map Prod.fst
  | [], _ => rfl
  | e :: order, h => by
    obtain ⟨he, hmem⟩ := forall_mem_cons.mp h
    rw [map_cons, filterMap_cons, mem_zipIdx_iff_getElem?.mp he,
      filterMap_positions hmem]
    rfl

theorem filterMap_columnOrder (heading : List Symbol) :
    (((columnOrder heading).map Prod.snd).filterMap fun p => heading[p]?) =
      (columnOrder heading).map Prod.fst :=
  filterMap_positions fun _ => (columnOrder_perm heading).mem_iff.mp

theorem mem_columnOrder {c : Symbol} :
    c ∈ (columnOrder heading).map Prod.fst ↔ c ∈ heading := by
  rw [((columnOrder_perm heading).map Prod.fst).mem_iff, zipIdx_map_fst]

theorem nodup_columnOrder :
    ((columnOrder heading).map Prod.fst).Nodup ↔ heading.Nodup := by
  rw [((columnOrder_perm heading).map Prod.fst).nodup_iff, zipIdx_map_fst]

/-- **The value of a heading and rows in any order.** -/
theorem new_table (hwide : heading.length ≤ maxHeading)
    (hnodup : heading.Nodup) (hlen : ∀ row ∈ rows, row.length = heading.length) :
    ∃ r, new heading rows = .ok r ∧ r.table = writtenTable heading rows hlen := by
  have hdup : firstDuplicate ((columnOrder heading).map Prod.fst) = none := by
    refine firstDuplicate_of_pairwise ?_
    exact (columnOrder_pairwise heading).and (nodup_columnOrder.mpr hnodup) |>.imp
      fun h => lt_of_le_of_ne h.1 h.2
  unfold new
  rw [dif_pos hwide]
  dsimp only
  split
  · next column h => exact nomatch hdup.symm.trans h
  split
  · next e h => exact nomatch (alignRows_eq_ok hlen).symm.trans h
  next aligned h =>
  obtain rfl := Except.ok.inj ((alignRows_eq_ok hlen).symm.trans h)
  refine ⟨_, rfl, NamedTable.ext ?_ ?_⟩
  · exact Set.ext fun c => mem_columnOrder
  have hcells : ∀ row ∈ rows, cells ((columnOrder heading).map Prod.fst)
      (row.select ((columnOrder heading).map Prod.snd)) = cells heading row := by
    intro row hrow
    have hlt : ∀ p ∈ (columnOrder heading).map Prod.snd, p < heading.length :=
      fun _ => mem_columnOrder_lt
    have hselect := cells_select hnodup (hlen row hrow) hlt
    rw [filterMap_columnOrder] at hselect
    rw [hselect]
    have hsame : columnSet ((columnOrder heading).map Prod.fst) = columnSet heading :=
      Set.ext fun c => mem_columnOrder
    rw [hsame, (over_cells (hlen row hrow)).restrict_self]
  change cells _ '' {row | row ∈ canonicalRows _} = cells heading '' {row | row ∈ rows}
  ext f
  simp only [canonicalRows_eq, mem_sortDedup, mem_map, Set.mem_image, Set.mem_ofPred_eq]
  constructor
  · rintro ⟨_, ⟨row, hrow, rfl⟩, rfl⟩
    exact ⟨row, hrow, (hcells row hrow).symm⟩
  · rintro ⟨row, hrow, rfl⟩
    exact ⟨_, ⟨row, hrow, rfl⟩, hcells row hrow⟩

/-- How many rows a relation has. -/
theorem length_rows (value : RelationValue) : value.rows.length = value.table.rows.ncard := by
  classical
  have hinj : Set.InjOn (Mica.cells value.heading) {row | row ∈ value.rows} :=
    fun row hrow row' hrow' h =>
    cells_injective value.nodup_heading (value.row_arity row hrow) (value.row_arity row' hrow') h
  change _ = (Mica.cells value.heading '' {row | row ∈ value.rows}).ncard
  rw [hinj.ncard_image, ← toFinset_card_of_nodup (value.rows_sorted.imp ne_of_lt),
    ← Set.ncard_coe_finset]
  congr 1
  ext row
  simp

/-- Rows that are written in another order of columns are as many. -/
theorem length_rows_of_new
    (h : new heading rows = .ok r) (hwide : heading.length ≤ maxHeading) (hnodup : heading.Nodup) :
    r.rows.length = (sortDedup rows).length := by
  classical
  obtain ⟨-, -, hlen⟩ := of_new_eq_ok h
  obtain ⟨r', hr', htable⟩ := new_table hwide hnodup hlen
  obtain rfl := Except.ok.inj (h.symm.trans hr')
  have hinj : Set.InjOn (Mica.cells heading) {row | row ∈ rows} := fun row hrow row' hrow' h =>
    cells_injective hnodup (hlen row hrow) (hlen row' hrow') h
  rw [length_rows, htable]
  change (Mica.cells heading '' {row | row ∈ rows}).ncard = _
  rw [hinj.ncard_image, ← toFinset_card_of_nodup ((pairwise_sortDedup rows).imp ne_of_lt),
    ← Set.ncard_coe_finset]
  congr 1
  ext row
  simp

theorem new_eq_error_of_wide (rows : List Tuple) (hwide : maxHeading < heading.length) :
    new heading rows = .error (.headingTooWide heading.length) := by
  unfold new
  rw [dif_neg (not_le.mpr hwide)]

/-- A column that is written twice is refused. -/
theorem exists_new_eq_error (rows : List Tuple) (hnodup : ¬ heading.Nodup) :
    ∃ e, new heading rows = .error e := by
  unfold new
  split
  · dsimp only
    split
    · exact ⟨_, rfl⟩
    · next h =>
      have hsorted := pairwise_of_firstDuplicate (columnOrder_pairwise heading) h
      exact absurd (nodup_columnOrder.mp (hsorted.imp ne_of_lt)) hnodup
  · exact ⟨_, rfl⟩

/-! ## The operations on tables -/

variable {left right : RelationValue}

theorem rebuildWithHeading_table (hlen : ∀ row ∈ rows,
    row.length = left.heading.length) : ∃ r, left.rebuildWithHeading rows = .ok r ∧
      r.table = writtenTable left.heading rows hlen := by
  obtain ⟨r, hr, htable⟩ := new_table left.width_le left.nodup_heading hlen
  exact ⟨r, congrArg (Except.mapError _) hr, htable⟩

theorem requireSameHeading_ok (h : left.heading = right.heading) :
    requireSameHeading left right = .ok () := if_pos h

theorem mem_table_heading {c : Symbol} :
    c ∈ r.table.heading ↔ c ∈ r.heading := Iff.rfl

theorem mem_table_rows {f : NamedRow Symbol Value} :
    f ∈ r.table.rows ↔ ∃ row ∈ r.rows, cells r.heading row = f := Iff.rfl

/-- **Union** is union of tables. -/
theorem union_table (h : left.table.heading = right.table.heading) :
    ∃ r, left.union right = .ok r ∧ r.table = left.table.union right.table h := by
  have hheading := heading_eq_iff.mp h
  have hlen : ∀ row ∈ unionOrderedTupleRows left.rows right.rows,
      row.length = left.heading.length := by
    intro row hrow
    rcases mem_mergeUnion.mp hrow with hrow | hrow
    · exact left.row_arity row hrow
    · exact hheading ▸ right.row_arity row hrow
  obtain ⟨r, hr, htable⟩ := rebuildWithHeading_table hlen
  refine ⟨r, by rw [union, requireSameHeading_ok hheading]; exact hr, htable.trans ?_⟩
  refine NamedTable.ext rfl ?_
  ext f
  change (∃ row ∈ unionOrderedTupleRows left.rows right.rows, cells left.heading row = f) ↔
    f ∈ left.table.rows ∨ f ∈ right.table.rows
  rw [mem_table_rows, mem_table_rows, ← hheading]
  simp only [unionOrderedTupleRows, mem_mergeUnion, or_and_right, exists_or]

/-- **Difference** is difference of tables. -/
theorem difference_table (h : left.table.heading = right.table.heading) :
    ∃ r, left.difference right = .ok r ∧ r.table = left.table.difference right.table := by
  have hheading := heading_eq_iff.mp h
  have hmem : ∀ row, row ∈ differenceOrderedTupleRows left.rows right.rows ↔
      row ∈ left.rows ∧ row ∉ right.rows := fun row =>
    mem_mergeDiff left.rows_sorted right.rows_sorted
  have hlen : ∀ row ∈ differenceOrderedTupleRows left.rows right.rows,
      row.length = left.heading.length := fun row hrow =>
    left.row_arity row ((hmem row).mp hrow).1
  obtain ⟨r, hr, htable⟩ := rebuildWithHeading_table hlen
  refine ⟨r, by rw [difference, requireSameHeading_ok hheading]; exact hr, htable.trans ?_⟩
  refine NamedTable.ext rfl ?_
  ext f
  change (∃ row ∈ differenceOrderedTupleRows left.rows right.rows, cells left.heading row = f) ↔
    f ∈ left.table.rows ∧ f ∉ right.table.rows
  rw [mem_table_rows, mem_table_rows, ← hheading]
  constructor
  · rintro ⟨row, hrow, rfl⟩
    obtain ⟨hl, hr⟩ := (hmem row).mp hrow
    refine ⟨⟨row, hl, rfl⟩, fun ⟨row', hrow', heq⟩ => hr ?_⟩
    have hlen' := right.row_arity row' hrow'
    rw [← hheading] at hlen'
    exact cells_injective left.nodup_heading hlen' (left.row_arity row hl) heq ▸ hrow'
  · rintro ⟨⟨row, hrow, rfl⟩, hnot⟩
    exact ⟨row, (hmem row).mpr ⟨hrow, fun hr => hnot ⟨row, hr, rfl⟩⟩, rfl⟩

/-- The positions of known columns. -/
theorem mapM_requireColumn (r : RelationValue) : ∀ {columns : List Symbol},
    (∀ c ∈ columns, c ∈ r.heading) → ∃ positions, columns.mapM r.requireColumn = .ok positions ∧
      positions.length = columns.length ∧ (positions.filterMap fun p => r.heading[p]?) = columns ∧
      ∀ p ∈ positions, p < r.heading.length
  | [], _ => ⟨[], rfl, rfl, rfl, nofun⟩
  | c :: columns, h => by
    obtain ⟨hc, hcolumns⟩ := forall_mem_cons.mp h
    obtain ⟨positions, hpositions, hlen, hfilter, hlt⟩ := mapM_requireColumn r hcolumns
    obtain ⟨p, hp⟩ := Option.isSome_iff_exists.mp (isSome_idxOf?.mpr hc)
    obtain ⟨hplt, hpc, -⟩ := idxOf?_eq_some_iff.mp hp
    refine ⟨p :: positions, ?_, congrArg Nat.succ hlen, ?_,
      forall_mem_cons.mpr ⟨hplt, hlt⟩⟩
    · rw [mapM_cons, hpositions, requireColumn, columnPosition, hp]
      rfl
    · rw [filterMap_cons, getElem?_eq_getElem hplt, hpc, hfilter]

theorem mapM_requireColumn_error (r : RelationValue) : ∀ {columns : List Symbol},
    (∃ c ∈ columns, c ∉ r.heading) → ∃ c ∈ columns, c ∉ r.heading ∧
      columns.mapM r.requireColumn = .error (.unknownColumn c)
  | [], h => by simp at h
  | c :: columns, h => by
    by_cases hc : c ∈ r.heading
    · obtain ⟨d, hd, hnot⟩ := h
      have hd : d ∈ columns := (mem_cons.mp hd).resolve_left fun heq => hnot (heq ▸ hc)
      obtain ⟨e, he, hnot, herr⟩ := mapM_requireColumn_error r ⟨d, hd, hnot⟩
      obtain ⟨p, hp⟩ := Option.isSome_iff_exists.mp (isSome_idxOf?.mpr hc)
      refine ⟨e, mem_cons_of_mem _ he, hnot, ?_⟩
      rw [mapM_cons, herr, requireColumn, columnPosition, hp]
      rfl
    · refine ⟨c, mem_cons_self, hc, ?_⟩
      rw [mapM_cons, requireColumn, columnPosition, idxOf?_eq_none_iff.mpr hc]
      rfl

/-- **Projection** is projection of tables. -/
theorem project_table {columns : List Symbol} (hmem : ∀ c ∈ columns, c ∈ left.heading)
    (hnodup : columns.Nodup) :
    ∃ r, left.project columns = .ok r ∧ r.table = left.table.project (columnSet columns) := by
  obtain ⟨positions, hpositions, hplen, hfilter, hlt⟩ := mapM_requireColumn left hmem
  have hwide : columns.length ≤ maxHeading :=
    (subperm_of_subset hnodup hmem).length_le.trans left.width_le
  have hrows : ∀ {row}, row ∈ projectTupleRows left.rows positions ↔
      ∃ t ∈ left.rows, t.select positions = row := by
    simp [projectTupleRows, finishTupleRows]
  have hlen : ∀ row ∈ projectTupleRows left.rows positions, row.length = columns.length := by
    intro row hrow
    obtain ⟨t, ht, rfl⟩ := hrows.mp hrow
    rw [Tuple.length_select fun p hp => (left.row_arity t ht).symm ▸ hlt p hp, hplen]
  obtain ⟨r, hr, htable⟩ := new_table hwide hnodup hlen
  refine ⟨r, ?_, htable.trans ?_⟩
  · rw [project, hpositions]
    exact congrArg (Except.mapError _) hr
  have hset : left.table.heading ∩ columnSet columns = columnSet columns :=
    Set.inter_eq_right.mpr hmem
  have hcells : ∀ t ∈ left.rows, cells columns (t.select positions) =
      NamedRow.restrict (columnSet columns) (cells left.heading t) := by
    intro t ht
    have hselect := cells_select left.nodup_heading (left.row_arity t ht) hlt
    rwa [hfilter] at hselect
  refine NamedTable.ext hset.symm ?_
  change cells columns '' _ = NamedRow.restrict (left.table.heading ∩ columnSet columns) '' _
  rw [hset]
  ext f
  constructor
  · rintro ⟨row, hrow, rfl⟩
    obtain ⟨t, ht, rfl⟩ := hrows.mp hrow
    exact ⟨_, ⟨t, ht, rfl⟩, (hcells t ht).symm⟩
  · rintro ⟨_, ⟨t, ht, rfl⟩, rfl⟩
    exact ⟨_, hrows.mpr ⟨t, ht, rfl⟩, hcells t ht⟩

/-! ## The natural join -/

/-- Rows agree at paired positions. -/
theorem select_pairs {t u : Tuple} : ∀ {pairs : List (ℕ × ℕ)},
    (∀ e ∈ pairs, e.1 < t.length ∧ e.2 < u.length) →
      (t.select (pairs.map Prod.fst) = u.select (pairs.map Prod.snd) ↔
        ∀ e ∈ pairs, t[e.1]? = u[e.2]?)
  | [], _ => by simp [Tuple.select_nil]
  | e :: pairs, h => by
    obtain ⟨⟨ht, hu⟩, hpairs⟩ := forall_mem_cons.mp h
    rw [map_cons, map_cons, Tuple.select_cons ht, Tuple.select_cons hu, List.cons.injEq,
      select_pairs hpairs, forall_mem_cons, getElem?_eq_getElem ht,
      getElem?_eq_getElem hu, Option.some.injEq]

theorem mem_sharedPositions {p q : ℕ} : (p, q) ∈ left.sharedPositions right ↔
    ∃ c, left.heading[p]? = some c ∧ right.heading.idxOf? c = some q := by
  simp only [sharedPositions, columnPosition, mem_filterMap, Option.map_eq_some_iff,
    Prod.mk.injEq, Prod.exists, mem_zipIdx_iff_getElem?]
  constructor
  · rintro ⟨c, p', hc, q', hq, rfl, rfl⟩
    exact ⟨c, hc, hq⟩
  · rintro ⟨c, hc, hq⟩
    exact ⟨c, p, hc, q, hq, rfl, rfl⟩

/-- **Joined rows agree on the shared columns.** -/
theorem select_sharedPositions {t u : Tuple} (ht : t ∈ left.rows) (hu : u ∈ right.rows) :
    t.select ((left.sharedPositions right).map Prod.fst) =
        u.select ((left.sharedPositions right).map Prod.snd) ↔
      ∀ c ∈ left.heading, c ∈ right.heading →
        cells left.heading t c = cells right.heading u c := by
  have hcell : ∀ {p q : ℕ} {c : Symbol}, left.heading[p]? = some c → right.heading.idxOf? c = some q →
      cells left.heading t c = t[p]? ∧ cells right.heading u c = u[q]? := by
    intro p q c hp hq
    refine ⟨cells_of_getElem? left.nodup_heading (left.row_arity t ht) hp, ?_⟩
    rw [cells, hq, Option.bind_some]
  rw [select_pairs]
  · constructor
    · intro h c hleft hright
      obtain ⟨p, hp⟩ := mem_iff_getElem?.mp hleft
      obtain ⟨q, hq⟩ := Option.isSome_iff_exists.mp (isSome_idxOf?.mpr hright)
      obtain ⟨hl, hr⟩ := hcell hp hq
      rw [hl, hr]
      exact h (p, q) (mem_sharedPositions.mpr ⟨c, hp, hq⟩)
    rintro h ⟨p, q⟩ he
    obtain ⟨c, hp, hq⟩ := mem_sharedPositions.mp he
    obtain ⟨hl, hr⟩ := hcell hp hq
    rw [← hl, ← hr]
    exact h c (mem_of_getElem? hp) (isSome_idxOf?.mp (hq ▸ rfl))
  · rintro ⟨p, q⟩ he
    obtain ⟨c, hp, hq⟩ := mem_sharedPositions.mp he
    obtain ⟨hlt, -⟩ := List.getElem?_eq_some_iff.mp hp
    obtain ⟨hlt', -⟩ := idxOf?_eq_some_iff.mp hq
    exact ⟨(left.row_arity t ht).symm ▸ hlt, (right.row_arity u hu).symm ▸ hlt'⟩

/-- The columns that only the right side has. -/
def rightOnlyColumns (left right : RelationValue) : List Symbol :=
  (left.rightOnlyPositions right).filterMap fun position => right.heading[position]?

/-- The columns of a join. -/
def joinedColumns (left right : RelationValue) : List Symbol :=
  left.heading ++ left.rightOnlyColumns right

theorem rightOnlyColumns_eq : left.rightOnlyColumns right =
    (right.heading.zipIdx.filter fun column => (left.columnPosition column.1).isNone).map
      Prod.fst :=
  filterMap_positions fun _ he => mem_of_mem_filter he

theorem mem_rightOnlyColumns {c : Symbol} :
    c ∈ left.rightOnlyColumns right ↔ c ∈ right.heading ∧ c ∉ left.heading := by
  simp only [rightOnlyColumns_eq, columnPosition, mem_map, mem_filter,
    isNone_idxOf?, Prod.exists, mem_zipIdx_iff_getElem?]
  constructor
  · rintro ⟨_, p, ⟨hp, hc⟩, rfl⟩
    exact ⟨mem_of_getElem? hp, hc⟩
  · rintro ⟨hright, hc⟩
    obtain ⟨p, hp⟩ := mem_iff_getElem?.mp hright
    exact ⟨c, p, ⟨hp, hc⟩, rfl⟩

theorem nodup_joinedColumns (left right : RelationValue) : (left.joinedColumns right).Nodup := by
  have hsub : (left.rightOnlyColumns right).Sublist right.heading := by
    rw [rightOnlyColumns_eq]
    exact ((filter_sublist).map Prod.fst).trans (zipIdx_map_fst _ _ ▸ .refl _)
  refine nodup_append.mpr ⟨left.nodup_heading, right.nodup_heading.sublist hsub, ?_⟩
  rintro c hleft _ hright rfl
  exact (mem_rightOnlyColumns.mp hright).2 hleft

theorem mem_joinedColumns {c : Symbol} :
    c ∈ left.joinedColumns right ↔ c ∈ left.heading ∨ c ∈ right.heading := by
  rw [joinedColumns, mem_append, mem_rightOnlyColumns]
  tauto

theorem rightOnlyPositions_lt (left right : RelationValue) :
    ∀ p ∈ left.rightOnlyPositions right, p < right.heading.length := by
  intro p hp
  obtain ⟨e, he, rfl⟩ := mem_map.mp hp
  exact (mem_zipIdx' (mem_of_mem_filter he)).1

theorem length_joined {t u : Tuple} (ht : t ∈ left.rows) (hu : u ∈ right.rows) :
    (t ++ u.select (left.rightOnlyPositions right)).length = (left.joinedColumns right).length := by
  have hselect : (u.select (left.rightOnlyPositions right)).length =
      (left.rightOnlyColumns right).length := by
    rw [Tuple.length_select fun p hp => (right.row_arity u hu).symm ▸
      rightOnlyPositions_lt left right p hp,
      rightOnlyColumns_eq, rightOnlyPositions, length_map, length_map]
  rw [joinedColumns, length_append, length_append, hselect, left.row_arity t ht]

/-- The row of two rows that agree. -/
theorem cells_joined {t u : Tuple} (ht : t ∈ left.rows) (hu : u ∈ right.rows) (c : Symbol) :
    cells (left.joinedColumns right) (t ++ u.select (left.rightOnlyPositions right)) c =
      if c ∈ left.heading then cells left.heading t c else cells right.heading u c := by
  rw [joinedColumns, cells_append (left.row_arity t ht)]
  split
  · rfl
  rename_i hc
  have hselect := cells_select right.nodup_heading (right.row_arity u hu)
    (rightOnlyPositions_lt left right)
  change cells (left.rightOnlyColumns right) _ = _ at hselect
  rw [hselect]
  by_cases hright : c ∈ right.heading
  · exact NamedRow.restrict_of_mem (mem_rightOnlyColumns.mpr ⟨hright, hc⟩)
  · rw [cells_eq_none hright]
    exact NamedRow.restrict_of_notMem fun h => hright (mem_rightOnlyColumns.mp h).1

/-- **Natural join** is the join of tables, if the result is not too wide. -/
theorem naturalJoin_table (M : Type → Type) [ByteMap M] (left right : RelationValue)
    (hwide : (left.joinedColumns right).length ≤ maxHeading) :
    ∃ r, left.naturalJoin M right = .ok r ∧ r.table = left.table.join right.table := by
  have hrows : ∀ {row}, row ∈ joinTupleRowsWith M left.rows right.rows
      ((left.sharedPositions right).map Prod.fst) ((left.sharedPositions right).map Prod.snd)
        (fun t u => t ++ u.select (left.rightOnlyPositions right)) ↔
      ∃ t ∈ left.rows, ∃ u ∈ right.rows, (∀ c ∈ left.heading, c ∈ right.heading →
        cells left.heading t c = cells right.heading u c) ∧
          t ++ u.select (left.rightOnlyPositions right) = row := by
    intro row
    rw [mem_joinTupleRowsWith (by simp)]
    refine exists_congr fun t => and_congr_right fun ht => exists_congr fun u =>
      and_congr_right fun hu => and_congr_left fun _ => select_sharedPositions ht hu
  have hlen : ∀ row ∈ joinTupleRowsWith M left.rows right.rows
      ((left.sharedPositions right).map Prod.fst) ((left.sharedPositions right).map Prod.snd)
        (fun t u => t ++ u.select (left.rightOnlyPositions right)),
      row.length = (left.joinedColumns right).length := by
    intro row hrow
    obtain ⟨t, ht, u, hu, -, rfl⟩ := hrows.mp hrow
    exact length_joined ht hu
  obtain ⟨r, hr, htable⟩ := new_table hwide (nodup_joinedColumns left right) hlen
  have hset : columnSet (left.joinedColumns right) = left.table.heading ∪ right.table.heading :=
    Set.ext fun c => mem_joinedColumns
  refine ⟨r, congrArg (Except.mapError _) hr, htable.trans (NamedTable.ext hset ?_)⟩
  ext f
  constructor
  · rintro ⟨row, hrow, rfl⟩
    refine ⟨hset ▸ over_cells (hlen row hrow), ?_⟩
    obtain ⟨t, ht, u, hu, hagree, rfl⟩ := hrows.mp hrow
    refine ⟨⟨t, ht, ?_⟩, u, hu, ?_⟩
    · funext c
      by_cases hc : c ∈ left.heading
      · rw [NamedRow.restrict_of_mem (mem_table_heading.mpr hc), cells_joined ht hu, if_pos hc]
      · rw [NamedRow.restrict_of_notMem (mt mem_table_heading.mp hc), cells_eq_none hc]
    funext c
    by_cases hright : c ∈ right.heading
    · rw [NamedRow.restrict_of_mem (mem_table_heading.mpr hright), cells_joined ht hu]
      split
      · next hleft => exact (hagree c hleft hright).symm
      · rfl
    · rw [NamedRow.restrict_of_notMem (mt mem_table_heading.mp hright), cells_eq_none hright]
  · rintro ⟨hover, ⟨t, ht, hleft⟩, u, hu, hright⟩
    have hl : ∀ c ∈ left.heading, cells left.heading t c = f c := fun c hc => by
      rw [hleft, NamedRow.restrict_of_mem (mem_table_heading.mpr hc)]
    have hr : ∀ c ∈ right.heading, cells right.heading u c = f c := fun c hc => by
      rw [hright, NamedRow.restrict_of_mem (mem_table_heading.mpr hc)]
    refine ⟨_, hrows.mpr ⟨t, ht, u, hu, fun c hc hc' => (hl c hc).trans (hr c hc').symm, rfl⟩, ?_⟩
    funext c
    rw [cells_joined ht hu]
    split
    · next hc => exact hl c hc
    · next hc =>
      by_cases hc' : c ∈ right.heading
      · exact hr c hc'
      · rw [cells_eq_none hc', hover.eq_none fun h => h.elim hc hc']

theorem naturalJoin_error (M : Type → Type) [ByteMap M]
    (hwide : maxHeading < (left.joinedColumns right).length) :
    left.naturalJoin M right =
      .error (.invalidRelation (.headingTooWide (left.joinedColumns right).length)) :=
  congrArg (Except.mapError _) (new_eq_error_of_wide _ hwide)

/-! ## The laws -/

theorem project_error {columns : List Symbol}
    (h : ¬ ((∀ c ∈ columns, c ∈ left.heading) ∧ columns.Nodup)) :
    ∃ e, left.project columns = .error e := by
  by_cases hmem : ∀ c ∈ columns, c ∈ left.heading
  · obtain ⟨positions, hpositions, -⟩ := mapM_requireColumn left hmem
    obtain ⟨e, he⟩ := exists_new_eq_error (projectTupleRows left.rows positions)
      fun hnodup => h ⟨hmem, hnodup⟩
    exact ⟨_, by rw [project, hpositions]; exact congrArg (Except.mapError _) he⟩
  · push Not at hmem
    obtain ⟨c, -, -, hc⟩ := mapM_requireColumn_error left hmem
    exact ⟨_, by rw [project, hc]⟩

/-- Two headings of the same columns are equally long. -/
theorem length_eq_of_mem_iff {heading' : List Symbol} (h : heading.Nodup)
    (h' : heading'.Nodup) (hmem : ∀ c, c ∈ heading ↔ c ∈ heading') :
    heading.length = heading'.length :=
  ((perm_ext_iff_of_nodup h h').mpr hmem).length_eq

section Join

variable (M : Type → Type) [ByteMap M] (left right third : RelationValue)

theorem naturalJoin_comm : left.naturalJoin M right = right.naturalJoin M left := by
  have hlen : (left.joinedColumns right).length = (right.joinedColumns left).length :=
    length_eq_of_mem_iff (nodup_joinedColumns _ _) (nodup_joinedColumns _ _) fun c => by
      rw [mem_joinedColumns, mem_joinedColumns, or_comm]
  by_cases hwide : (left.joinedColumns right).length ≤ maxHeading
  · obtain ⟨r, hr, htable⟩ := naturalJoin_table M left right hwide
    obtain ⟨s, hs, htable'⟩ := naturalJoin_table M right left (hlen ▸ hwide)
    rw [hr, hs, table_injective (htable.trans ((NamedTable.join_comm _ _).trans htable'.symm))]
  · rw [naturalJoin_error M (not_le.mp hwide), naturalJoin_error M (hlen ▸ not_le.mp hwide), hlen]

variable {M left right third} {all : List Symbol}

/-- The columns of a join of joins. -/
theorem length_joinedColumns_join {r : RelationValue} (hall : all.Nodup)
    (hmem : ∀ c, c ∈ all ↔ c ∈ left.heading ∨ c ∈ right.heading ∨ c ∈ third.heading)
    (hr : r.table = left.table.join right.table) :
    (r.joinedColumns third).length = all.length := by
  refine length_eq_of_mem_iff (nodup_joinedColumns _ _) hall fun c => ?_
  have hc : c ∈ r.heading ↔ c ∈ left.heading ∨ c ∈ right.heading :=
    Set.ext_iff.mp (congrArg NamedTable.heading hr) c
  rw [mem_joinedColumns, hmem, hc, or_assoc]

theorem naturalJoin_bind (hall : all.Nodup)
    (hmem : ∀ c, c ∈ all ↔ c ∈ left.heading ∨ c ∈ right.heading ∨ c ∈ third.heading)
    (hwide : all.length ≤ maxHeading) :
    ∃ r, (left.naturalJoin M right).bind (fun r => r.naturalJoin M third) = .ok r ∧
      r.table = (left.table.join right.table).join third.table := by
  have hsub : (left.joinedColumns right).length ≤ all.length :=
    (subperm_of_subset (nodup_joinedColumns left right) fun c hc => (hmem c).mpr
      (or_assoc.mp (.inl (mem_joinedColumns.mp hc)))).length_le
  obtain ⟨r, hr, htable⟩ := naturalJoin_table M left right (hsub.trans hwide)
  obtain ⟨s, hs, htable'⟩ := naturalJoin_table M r third
    (length_joinedColumns_join hall hmem htable ▸ hwide)
  exact ⟨s, by rw [hr]; exact hs, by rw [htable', htable]⟩

theorem naturalJoin_bind_none (hall : all.Nodup)
    (hmem : ∀ c, c ∈ all ↔ c ∈ left.heading ∨ c ∈ right.heading ∨ c ∈ third.heading)
    (hwide : maxHeading < all.length) :
    ((left.naturalJoin M right).bind fun r => r.naturalJoin M third).toOption = none := by
  by_cases hfirst : (left.joinedColumns right).length ≤ maxHeading
  · obtain ⟨r, hr, htable⟩ := naturalJoin_table M left right hfirst
    rw [hr]
    change (r.naturalJoin M third).toOption = none
    rw [naturalJoin_error M (length_joinedColumns_join hall hmem htable ▸ hwide)]
    rfl
  · rw [naturalJoin_error M (not_le.mp hfirst)]
    rfl

theorem naturalJoin_assoc :
    ((left.naturalJoin M right).bind fun r => r.naturalJoin M third).toOption =
      ((right.naturalJoin M third).bind fun r => left.naturalJoin M r).toOption := by
  have hall : ((left.heading ++ right.heading ++ third.heading).dedup).Nodup := nodup_dedup _
  have hmem : ∀ c, c ∈ (left.heading ++ right.heading ++ third.heading).dedup ↔
      c ∈ left.heading ∨ c ∈ right.heading ∨ c ∈ third.heading := by simp
  have hmem' : ∀ c, c ∈ (left.heading ++ right.heading ++ third.heading).dedup ↔
      c ∈ right.heading ∨ c ∈ third.heading ∨ c ∈ left.heading := fun c => by
    rw [hmem]
    tauto
  simp only [naturalJoin_comm M left]
  rcases le_or_gt (left.heading ++ right.heading ++ third.heading).dedup.length maxHeading with
    hwide | hwide
  · obtain ⟨r, hr, htable⟩ := naturalJoin_bind (M := M) hall hmem hwide
    obtain ⟨s, hs, htable'⟩ := naturalJoin_bind (M := M) hall hmem' hwide
    rw [← naturalJoin_comm M left, hr, hs, table_injective (htable.trans (Eq.trans ?_ htable'.symm))]
    rw [NamedTable.join_assoc, NamedTable.join_comm]
  · rw [← naturalJoin_comm M left, naturalJoin_bind_none hall hmem hwide,
      naturalJoin_bind_none hall hmem' hwide]

end Join

/-- **Relation values follow set theory**: each operation gives the value of the table that set theory
gives, or an error where there is no such value. -/
structure FollowsSetTheory (M : Type → Type) [ByteMap M] : Prop where
  canonical : Function.Injective table
  written : ∀ heading heading' rows rows' hlen hlen', heading.Nodup → heading'.Nodup →
    heading.length ≤ maxHeading → heading'.length ≤ maxHeading →
    writtenTable heading rows hlen = writtenTable heading' rows' hlen' →
      ∃ r, new heading rows = .ok r ∧ new heading' rows' = .ok r ∧
        r.table = writtenTable heading rows hlen
  project : ∀ (r : RelationValue) columns, (∀ c ∈ columns, c ∈ r.heading) → columns.Nodup →
    ∃ p, r.project columns = .ok p ∧ p.table = r.table.project (columnSet columns)
  project_error : ∀ (r : RelationValue) columns,
    ¬ ((∀ c ∈ columns, c ∈ r.heading) ∧ columns.Nodup) → ∃ e, r.project columns = .error e
  project_perm : ∀ (r : RelationValue) columns columns', columns.Perm columns' →
    (r.project columns).toOption = (r.project columns').toOption
  union : ∀ left right : RelationValue, ∀ h : left.table.heading = right.table.heading,
    ∃ r, left.union right = .ok r ∧ r.table = left.table.union right.table h
  difference : ∀ left right : RelationValue, left.table.heading = right.table.heading →
    ∃ r, left.difference right = .ok r ∧ r.table = left.table.difference right.table
  mismatch : ∀ left right : RelationValue, left.table.heading ≠ right.table.heading →
    left.union right = .error (.headingMismatch left.heading right.heading) ∧
      left.difference right = .error (.headingMismatch left.heading right.heading)
  union_comm : ∀ left right : RelationValue, (left.union right).toOption = (right.union left).toOption
  union_assoc : ∀ left right third : RelationValue,
    ((left.union right).bind fun r => r.union third).toOption =
      ((right.union third).bind fun r => left.union r).toOption
  naturalJoin : ∀ left right : RelationValue, (left.joinedColumns right).length ≤ maxHeading →
    ∃ r, left.naturalJoin M right = .ok r ∧ r.table = left.table.join right.table
  naturalJoin_error : ∀ left right : RelationValue, maxHeading < (left.joinedColumns right).length →
    left.naturalJoin M right =
      .error (.invalidRelation (.headingTooWide (left.joinedColumns right).length))
  naturalJoin_comm : ∀ left right : RelationValue,
    left.naturalJoin M right = right.naturalJoin M left
  naturalJoin_assoc : ∀ left right third : RelationValue,
    ((left.naturalJoin M right).bind fun r => r.naturalJoin M third).toOption =
      ((right.naturalJoin M third).bind fun r => left.naturalJoin M r).toOption

theorem union_mismatch (h : left.heading ≠ right.heading) :
    left.union right = .error (.headingMismatch left.heading right.heading) := by
  rw [union, requireSameHeading, if_neg h]

theorem difference_mismatch (h : left.heading ≠ right.heading) :
    left.difference right = .error (.headingMismatch left.heading right.heading) := by
  rw [difference, requireSameHeading, if_neg h]

theorem union_comm_toOption (left right : RelationValue) :
    (left.union right).toOption = (right.union left).toOption := by
  by_cases h : left.heading = right.heading
  · obtain ⟨r, hr, htable⟩ := union_table (heading_eq_iff.mpr h)
    obtain ⟨s, hs, htable'⟩ := union_table (heading_eq_iff.mpr h.symm)
    have htables := (NamedTable.union_comm (heading_eq_iff.mpr h)).trans htable'.symm
    rw [hr, hs, table_injective (htable.trans htables)]
  · rw [union_mismatch h, union_mismatch (Ne.symm h)]
    rfl

theorem union_assoc_toOption (left right third : RelationValue) :
    ((left.union right).bind fun r => r.union third).toOption =
      ((right.union third).bind fun r => left.union r).toOption := by
  have hresult : ∀ {l r s : RelationValue} (h : l.table.heading = r.table.heading),
      s.table = l.table.union r.table h → s.heading = l.heading :=
    fun _ hs => heading_eq_iff.mp (by rw [hs]; rfl)
  by_cases h : left.heading = right.heading
  · have hl := heading_eq_iff.mpr h
    obtain ⟨r, hr, htable⟩ := union_table hl
    have hrl := hresult hl htable
    rw [hr]
    by_cases h' : right.heading = third.heading
    · have hr' := heading_eq_iff.mpr h'
      obtain ⟨s, hs, htable'⟩ := union_table hr'
      have hsr := hresult hr' htable'
      have hx : r.table.heading = third.table.heading :=
        heading_eq_iff.mpr (hrl.trans (h.trans h'))
      have hy : left.table.heading = s.table.heading := heading_eq_iff.mpr (h.trans hsr.symm)
      obtain ⟨x, hx, hxtable⟩ := union_table hx
      obtain ⟨y, hy, hytable⟩ := union_table hy
      have hxy : x.table = y.table := by
        simp only [hxtable, hytable, htable, htable']
        exact NamedTable.union_assoc hl hr'
      rw [hs]
      change (r.union third).toOption = (left.union s).toOption
      rw [hx, hy, table_injective hxy]
    · rw [union_mismatch h']
      change (r.union third).toOption = none
      rw [union_mismatch fun heq => h' (h.symm.trans (hrl.symm.trans heq))]
      rfl
  · rw [union_mismatch h]
    change none = _
    by_cases h' : right.heading = third.heading
    · have hr' := heading_eq_iff.mpr h'
      obtain ⟨s, hs, htable'⟩ := union_table hr'
      rw [hs]
      change none = (left.union s).toOption
      rw [union_mismatch fun heq => h (heq.trans (hresult hr' htable'))]
      rfl
    · rw [union_mismatch h']
      rfl

/-- Columns in another order name the same projection. -/
theorem project_perm_toOption (r : RelationValue) {columns columns' : List Symbol}
    (h : columns.Perm columns') :
    (r.project columns).toOption = (r.project columns').toOption := by
  by_cases hok : (∀ c ∈ columns, c ∈ r.heading) ∧ columns.Nodup
  · obtain ⟨p, hp, htable⟩ := project_table hok.1 hok.2
    have hmem : ∀ c ∈ columns', c ∈ r.heading := fun c hc => hok.1 c (h.mem_iff.mpr hc)
    obtain ⟨q, hq, htable'⟩ := project_table hmem (h.nodup_iff.mp hok.2)
    have hset : columnSet columns = columnSet columns' := Set.ext fun c => h.mem_iff
    rw [hp, hq, table_injective (htable.trans ((congrArg r.table.project hset).trans htable'.symm))]
  obtain ⟨e, he⟩ := project_error hok
  have hok' : ¬ ((∀ c ∈ columns', c ∈ r.heading) ∧ columns'.Nodup) := fun hok' =>
    hok ⟨fun c hc => hok'.1 c (h.mem_iff.mp hc), h.nodup_iff.mpr hok'.2⟩
  obtain ⟨e', he'⟩ := project_error hok'
  rw [he, he']
  rfl

/-- **Projection, union, difference and natural join of relation values are those of set theory.** -/
theorem relationAlgebra_exact (M : Type → Type) [ByteMap M] : FollowsSetTheory M where
  canonical := table_injective
  written heading heading' rows rows' hlen hlen' hnodup hnodup' hwide hwide' h := by
    obtain ⟨r, hr, htable⟩ := new_table hwide hnodup hlen
    obtain ⟨s, hs, htable'⟩ := new_table hwide' hnodup' hlen'
    obtain rfl := table_injective (htable.trans (h.trans htable'.symm))
    exact ⟨r, hr, hs, htable⟩
  project _ _ := project_table
  project_error _ _ := RelationValue.project_error
  project_perm _ _ _ := project_perm_toOption _
  union _ _ := union_table
  difference _ _ := difference_table
  mismatch _ _ h :=
    ⟨union_mismatch (mt heading_eq_iff.mpr h), difference_mismatch (mt heading_eq_iff.mpr h)⟩
  union_comm := union_comm_toOption
  union_assoc := union_assoc_toOption
  naturalJoin := naturalJoin_table M
  naturalJoin_error _ _ := RelationValue.naturalJoin_error M
  naturalJoin_comm := RelationValue.naturalJoin_comm M
  naturalJoin_assoc _ _ _ := RelationValue.naturalJoin_assoc

/-! ## Where there is no value -/

/-- A relation of the columns from `m` up to `n`, without rows. -/
def columnsFrom (m n : ℕ) (hwide : n ≤ maxHeading) (hn : m + n ≤ 2 ^ 32) : RelationValue where
  heading := (List.range n).map fun i => ⟨UInt32.ofNat (m + i)⟩
  rows := []
  width_le := by simpa using hwide
  heading_sorted := by
    refine pairwise_map.mpr (pairwise_lt_range.imp_of_mem fun {i j} _ hj hij => ?_)
    have hj := mem_range.mp hj
    have hlt : ∀ {k}, k < n → (UInt32.ofNat (m + k)).toNat = m + k := fun hk =>
      UInt32.toNat_ofNat_of_lt (by change m + _ < 2 ^ 32; omega)
    change (UInt32.ofNat (m + i)).toNat < (UInt32.ofNat (m + j)).toNat
    rw [hlt (hij.trans hj), hlt hj]
    omega
  row_arity := nofun
  rows_sorted := rows_sorted_nil

theorem of_mem_columnsFrom {m n : ℕ} {hwide : n ≤ maxHeading} {hn : m + n ≤ 2 ^ 32} {c : Symbol}
    (h : c ∈ (columnsFrom m n hwide hn).heading) : ∃ i < n, c = ⟨UInt32.ofNat (m + i)⟩ := by
  obtain ⟨i, hi, heq⟩ := mem_map.mp h
  exact ⟨i, mem_range.mp hi, heq.symm⟩

theorem length_columnsFrom (m n : ℕ) (hwide : n ≤ maxHeading) (hn : m + n ≤ 2 ^ 32) :
    (columnsFrom m n hwide hn).heading.length = n := by
  rw [columnsFrom, length_map, length_range]

/-- The widest relation there is and a relation of one other column have no natural join, and a
projection that names a column twice is refused. -/
theorem naturalJoin_too_wide :
    (columnsFrom 0 maxHeading le_rfl (by decide)).naturalJoin Entries
        (columnsFrom maxHeading 1 (by decide) (by decide)) =
      .error (.invalidRelation (.headingTooWide (maxHeading + 1))) ∧
    (columnsFrom 0 1 (by decide) (by decide)).project [⟨0⟩, ⟨0⟩] =
      .error (.invalidRelation (.duplicateColumn ⟨0⟩)) := by
  refine ⟨?_, rfl⟩
  generalize hleft : columnsFrom 0 maxHeading le_rfl (by decide) = left
  generalize hright : columnsFrom maxHeading 1 (by decide) (by decide) = right
  have hl : left.heading.length = maxHeading := hleft ▸ length_columnsFrom _ _ _ _
  have hother : right.heading = [⟨UInt32.ofNat maxHeading⟩] := by
    rw [← hright, columnsFrom]
    simp
  have hnot : (⟨UInt32.ofNat maxHeading⟩ : Symbol) ∉ left.heading := by
    rw [← hleft]
    intro hmem
    obtain ⟨i, hi, heq⟩ := of_mem_columnsFrom hmem
    have hval := congrArg (fun s : Symbol => s.id.toNat) heq
    dsimp only at hval
    have hwide : maxHeading < UInt32.size := by decide
    rw [UInt32.toNat_ofNat_of_lt' hwide,
      UInt32.toNat_ofNat_of_lt' (show 0 + i < UInt32.size by omega)] at hval
    omega
  have hnodup : (left.rightOnlyColumns right).Nodup :=
    (nodup_append.mp (nodup_joinedColumns left right)).2.1
  have honly : (left.rightOnlyColumns right).length = 1 := by
    refine (length_eq_of_mem_iff hnodup (nodup_singleton ⟨UInt32.ofNat maxHeading⟩)
      fun c => ?_).trans rfl
    rw [mem_rightOnlyColumns, hother]
    refine and_iff_left_of_imp fun hc => ?_
    rwa [mem_singleton.mp hc]
  have hlen : (left.joinedColumns right).length = maxHeading + 1 := by
    rw [joinedColumns, length_append, hl, honly]
  rw [naturalJoin_error Entries (hlen ▸ Nat.lt_succ_self _), hlen]

end RelationValue

end Mica
