import Mica.Var.Decode

/-!
# Vm/TypeContract — what a value has to match at run time
-/

open List

namespace Mica

inductive TypeLiteralContract where
  | bool (value : Bool)
  | symbol (symbol : Symbol)
  | errorCode (symbol : Symbol)
  | unit
  | emptyRelation
  deriving DecidableEq

inductive TypeContract where
  | dynamic | never
  | kind (kind : ValueKind)
  | literal (literal : TypeLiteralContract)
  | union (types : List TypeContract)
  | relation (alternatives : List (List (Symbol × TypeContract))) (minimumRows : ℕ)
      (maximumRows : Option ℕ)

/-! ## Relations among the values -/

namespace Value

def kind (v : Value) : ValueKind := v.raw.kind

/-- `Value::as_bool`. -/
def asBool (v : Value) : Option Bool :=
  match v.raw with
  | .bool b => some b
  | _ => none

/-- The cells of a row that is canonical. -/
def cellsOf (row : List RawValue) (h : ∀ v ∈ row, v.isCanonical = true) : Tuple :=
  row.pmap Value.mk h

theorem map_raw_cellsOf {row : List RawValue} (h : ∀ v ∈ row, v.isCanonical = true) :
    (cellsOf row h).map Value.raw = row := by
  rw [cellsOf, map_pmap]
  exact (pmap_eq_map h).trans (map_id _)

/-- The rows of a relation that is canonical. -/
def rowsOf (rows : List (List RawValue)) (h : ∀ row ∈ rows, ∀ v ∈ row, v.isCanonical = true) :
    List Tuple :=
  rows.pmap cellsOf h

theorem map_raw_rowsOf : ∀ {rows : List (List RawValue)}
    (h : ∀ row ∈ rows, ∀ v ∈ row, v.isCanonical = true),
    (rowsOf rows h).map (fun row => row.map Value.raw) = rows
  | [], _ => rfl
  | _ :: _, h => congrArg₂ List.cons (map_raw_cellsOf (forall_mem_cons.mp h).1)
      (map_raw_rowsOf (forall_mem_cons.mp h).2)

theorem rowsOf_map_raw {rows : List Tuple}
    (h : ∀ row ∈ rows.map (fun row => row.map Value.raw), ∀ v ∈ row, v.isCanonical = true) :
    rowsOf (rows.map fun row => row.map Value.raw) h = rows := by
  have hinj : Function.Injective fun row : Tuple => row.map Value.raw :=
    map_injective_iff.mpr fun _ _ => Value.ext
  exact map_injective_iff.mpr hinj (map_raw_rowsOf h)

/-- `Value::with_relation`. -/
def asRelation (v : Value) : Option RelationValue :=
  match h : v.raw with
  | .relation heading rows =>
    have hparts : RawValue.isCanonical (.relation heading rows) = true := h ▸ v.canonical
    have hcells : ∀ row ∈ rows, ∀ v ∈ row, v.isCanonical = true := by
      simp only [RawValue.isCanonical, Bool.and_eq_true, rowsCanonical_iff] at hparts
      exact hparts.2
    some {
      heading := heading
      rows := rowsOf rows hcells
      width_le := by
        simp only [RawValue.isCanonical, Bool.and_eq_true, decide_eq_true_eq] at hparts
        exact hparts.1.1.1.1
      heading_sorted := by
        simp only [RawValue.isCanonical, Bool.and_eq_true, decide_eq_true_eq] at hparts
        exact hparts.1.1.1.2.imp Symbol.lt_iff.mpr
      row_arity := by
        intro row hrow
        have harity : ∀ row ∈ rows, row.length = heading.length := by
          simp only [RawValue.isCanonical, Bool.and_eq_true, decide_eq_true_eq] at hparts
          exact hparts.1.1.2
        have hmem : row.map Value.raw ∈ rows := by
          rw [← map_raw_rowsOf hcells]
          exact mem_map_of_mem hrow
        rw [← length_map Value.raw]
        exact harity _ hmem
      rows_sorted := by
        have hsorted : rows.Pairwise fun a b => cmpValues a b = .lt := by
          simp only [RawValue.isCanonical, Bool.and_eq_true, decide_eq_true_eq] at hparts
          exact hparts.1.2
        rw [← map_raw_rowsOf hcells, pairwise_map] at hsorted
        exact hsorted.imp Tuple.lt_iff.mpr }
  | _ => none

@[simp] theorem asRelation_ofRelation (r : RelationValue) : (ofRelation r).asRelation = some r := by
  unfold asRelation
  split
  · next heading rows h =>
    obtain ⟨rfl, rfl⟩ := RawValue.relation.inj h
    obtain ⟨heading, rows, _, _, _, _⟩ := r
    simp only [Option.some.injEq, RelationValue.mk.injEq, true_and]
    exact rowsOf_map_raw _
  · next h => exact absurd rfl (h _ _)

theorem asRelation_eq_some {v : Value} {r : RelationValue} :
    v.asRelation = some r ↔ v = ofRelation r := by
  constructor
  · intro h
    induction v using Value.induction with
    | relation r' =>
      rw [asRelation_ofRelation] at h
      rw [Option.some.inj h]
    | _ => exact nomatch h
  · rintro rfl
    exact asRelation_ofRelation r

end Value

/-! ## Matching -/

/-- A literal is matched. -/
def TypeLiteralContract.accepts : TypeLiteralContract → Value → Bool
  | bool expected, v => v.asBool = some expected
  | symbol expected, v => v.asSymbol = some expected
  | errorCode expected, v => v.asErrorCode = some expected
  | unit, v => v.asRelation.any fun r => r.heading.length = 0 && r.rows.length = 1
  | emptyRelation, v => v = Mica.emptyRelation

namespace TypeContract

mutual

/-- `value_matches_type`; the cache of the checks that have succeeded is left out. -/
def valueMatchesType : TypeContract → Value → Bool
  | dynamic, _ => true
  | never, _ => false
  | kind expected, v => v.kind = expected
  | literal expected, v => expected.accepts v
  | union types, v => matchesAny types v
  | relation alternatives minimumRows maximumRows, v =>
    v.asRelation.any fun r =>
      alternatives.head?.any fun first =>
        minimumRows ≤ r.rows.length && maximumRows.all (fun maximum => r.rows.length ≤ maximum) &&
          (r.heading = first.map Prod.fst && r.rows.all fun row => matchesAlternative alternatives row)
termination_by structural t => t

def matchesAny : List TypeContract → Value → Bool
  | [], _ => false
  | t :: types, v => valueMatchesType t v || matchesAny types v
termination_by structural types => types

/-- A row matches one of the alternatives. -/
def matchesAlternative : List (List (Symbol × TypeContract)) → Tuple → Bool
  | [], _ => false
  | alternative :: alternatives, row => matchesRow alternative row || matchesAlternative
    alternatives row
termination_by structural alternatives => alternatives

/-- The cells of a row match the columns that they are paired with. -/
def matchesRow : List (Symbol × TypeContract) → Tuple → Bool
  | [], _ => true
  | (_, _) :: _, [] => true
  | (_, contract) :: columns, cell :: row => valueMatchesType contract cell && matchesRow columns row
termination_by structural columns => columns

end

end TypeContract

theorem matchesAlternative_iff {row : Tuple} :
    ∀ {alternatives : List (List (Symbol × TypeContract))},
    TypeContract.matchesAlternative alternatives row = true ↔
      ∃ alternative ∈ alternatives, TypeContract.matchesRow alternative row = true
  | [] => by simp [TypeContract.matchesAlternative]
  | alternative :: alternatives => by
    rw [TypeContract.matchesAlternative, Bool.or_eq_true, matchesAlternative_iff,
      exists_mem_cons_iff]

end Mica
