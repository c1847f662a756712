import Mica.Lib.SortedList
import Mica.Var.Tuple

/-!
# Kernel/RowAlgebra — set operations on rows

The set operations walk two lists of rows from the front and are right only on sorted lists; the
ones that sort their arguments first are right on any.
-/

open SortedList

namespace Mica

/-- `finish_tuple_rows`: sort and drop repeats. -/
def finishTupleRows (rows : List Tuple) : List Tuple := sortDedup rows

/-- `project_tuple_rows`. -/
def projectTupleRows (rows : List Tuple) (positions : List ℕ) : List Tuple :=
  finishTupleRows (rows.map fun row => row.select positions)

/-- `union_ordered_tuple_rows`. -/
def unionOrderedTupleRows (left right : List Tuple) : List Tuple := mergeUnion left right

/-- `difference_ordered_tuple_rows`. -/
def differenceOrderedTupleRows (left right : List Tuple) : List Tuple := mergeDiff left right

end Mica
