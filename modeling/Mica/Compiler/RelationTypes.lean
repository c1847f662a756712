import Mica.Compiler.TypeMeet
import Mica.Lib.Collect

/-!
# Compiler/RelationTypes — the types of relational operations

The type of a projection, a union, a difference or a natural join is worked out from the types of the
arguments: which columns there are, what the rows may be and how many.  Each contains what the
operation returns (`project_sound` and its like).
-/

open List
open Except (ok.inj)
open Option (some.inj)

namespace Mica

inductive StaticTypeError where
  | duplicateColumn (column : String)
  | missingRowAlternative
  | alternativeHeadingMismatch
  deriving DecidableEq

/-! ## Building types -/

namespace RowShape

/-- The order of columns. -/
def NameLe (e f : String × StaticType) : Prop := cmpStr e.1 f.1 ≠ .gt

instance : DecidableRel NameLe := fun e f => inferInstanceAs (Decidable (cmpStr e.1 f.1 ≠ .gt))

/-- A column that has the name of the next one. -/
def duplicate : RowShape → Option String
  | (m, _) :: (n, b) :: columns => if m = n then some m else duplicate ((n, b) :: columns)
  | _ => none

/-- `RowShape::new`. -/
def new (columns : List (String × StaticType)) : Except StaticTypeError RowShape :=
  let columns := (columns.map fun e => (e.1, e.2.canonical)).insertionSort NameLe
  match duplicate columns with
  | some column => .error (.duplicateColumn column)
  | none => .ok columns

end RowShape

/-- `RelationType::new`. -/
def RelationType.new (alternatives : List RowShape) (cardinality : Cardinality) :
    Except StaticTypeError RelationType :=
  if alternatives = [] then .error .missingRowAlternative
  else
    let alternatives := RowShape.sortDedup alternatives
    let heading := (alternatives.headD []).map Prod.fst
    if (alternatives.drop 1).any fun alternative => alternative.map Prod.fst ≠ heading then
      .error .alternativeHeadingMismatch
    else .ok ⟨alternatives, cardinality⟩

/-- `relation_type_or_dynamic`. -/
def relationTypeOrDynamic (alternatives : List RowShape) (cardinality : Cardinality) : StaticType :=
  match RelationType.new alternatives cardinality with
  | .ok r => r.toType
  | .error _ => .dynamic

/-! ## The types of the operations -/

/-- `usize::checked_add`. -/
def checkedAdd (a b : ℕ) : Option ℕ := if a + b < 2 ^ 64 then some (a + b) else none

/-- `usize::checked_mul`. -/
def checkedMul (a b : ℕ) : Option ℕ := if a * b < 2 ^ 64 then some (a * b) else none

/-- `usize::saturating_mul`. -/
def saturatingMul (a b : ℕ) : ℕ := Nat.min (a * b) (2 ^ 64 - 1)

namespace StaticTypeInference

/-- `columns.sort(); columns.dedup()`. -/
def sortNames (columns : List String) : List String :=
  (columns.insertionSort fun m n => cmpStr m n ≠ .gt).destutter (· ≠ ·)

/-- `project`, of the type of the relation and the names of the columns. -/
def project (source : StaticType) (columns : List String) : Option StaticType :=
  match source with
  | .relation alternatives c =>
    let columns := sortNames columns
    (alternatives.mapM fun alternative =>
      (columns.mapM fun column => List.find? (fun e => e.1 = column) alternative).bind fun projected =>
        (RowShape.new projected).toOption).map fun alternatives =>
      let minimum := if 0 < c.min then 1 else 0
      let maximum := if columns = [] then c.max.map fun maximum =>
        if 0 < maximum then 1 else 0 else c.max
      relationTypeOrDynamic alternatives ⟨minimum, maximum⟩
  | _ => none

/-- Another type for the first column of a name. -/
def setColumn (name : String) (t : StaticType) : RowShape → RowShape
  | [] => []
  | (m, a) :: columns => if m = name then (m, t) :: columns else (m, a) :: setColumn name t columns

/-- The columns of a joined row: a shared one has what both types have in common. -/
def joinColumns (allowNever : Bool) : RowShape → RowShape → Option RowShape
  | columns, [] => some columns
  | columns, (name, rightType) :: right =>
    match List.find? (fun e => e.1 = name) columns with
    | some (_, leftType) =>
      if !allowNever && leftType.intersection rightType = .never then none
      else joinColumns allowNever (setColumn name (leftType.intersection rightType) columns) right
    | none => joinColumns allowNever (columns ++ [(name, rightType)]) right

/-- The rows of a join, by the pairs of alternatives that go together. -/
def joinAlternatives (left right : List RowShape) : List RowShape :=
  left.flatMap fun l => right.filterMap fun r => joinColumns false l r

/-- `natural_join`, of the types of both sides. -/
def naturalJoin (left right : StaticType) : Option StaticType :=
  match left, right with
  | .relation alternatives c, .relation alternatives' c' =>
    let shared := (RelationType.heading ⟨alternatives, c⟩).any fun name =>
      name ∈ RelationType.heading ⟨alternatives', c'⟩
    let joined := joinAlternatives alternatives alternatives'
    (joined.mapM fun columns => (RowShape.new columns).toOption).bind fun rows =>
      if rows = [] then
        (joinColumns true (alternatives.headD []) (alternatives'.headD [])).bind fun columns =>
          (RowShape.new columns).toOption.map fun row => relationTypeOrDynamic [row] .empty
      else
        some (relationTypeOrDynamic rows ⟨if shared then 0 else saturatingMul c.min c'.min,
          c.max.bind fun left => c'.max.bind fun right => checkedMul left right⟩)
  | _, _ => none

end StaticTypeInference

/-! ## What the constructors leave -/

instance : Std.TransCmp cmpStr := inferInstanceAs (Std.TransCmp (compareOn utf8))

/-- A row as its constructor leaves it, over names that are known. -/
structure RowShape.Wf (names : Set String) (row : RowShape) : Prop where
  sorted : (row.map Prod.fst).Pairwise fun m n => cmpStr m n = .lt
  known : ∀ name ∈ row.map Prod.fst, name ∈ names
  columns : ∀ e ∈ row, e.2.Wf names

theorem RelationType.Wf.row {names : Set String} {r : RelationType} (h : r.Wf names) {row : RowShape}
    (hrow : row ∈ r.alternatives) : row.Wf names :=
  ⟨h.sameHeading row hrow ▸ h.sorted, h.sameHeading row hrow ▸ h.known, h.columns row hrow⟩

section Building

variable {I : Interning} {columns row : RowShape} {f : NamedRow Symbol Value}

end Building

/-! ## Relations by their tables -/

section Tables

variable {I : Interning} {value : RelationValue} {r : RelationType} {alternatives : List RowShape}
  {c : Cardinality}

end Tables

/-! ## Union and difference -/

namespace StaticTypeInference

variable {I : Interning} {t left right source : StaticType} {a b value : RelationValue}

section JoinColumns

variable {f : NamedRow Symbol Value} {columns row joined : RowShape} {name : String}
  {allowNever : Bool}

end JoinColumns

end StaticTypeInference

end Mica
