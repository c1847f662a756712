import Mathlib.Data.List.Destutter
import Mathlib.Data.List.Sort
import Mica.Lib.Measured
import Mica.Var.OrderedKey
import Mica.Var.Construct

/-!
# Compiler/StaticType — the types of the compiler

A static type is a kind, a literal, a union, or a relation of rows whose columns have types, with
bounds for the number of rows.  Whether one is a subtype of another, whether two exclude each other
and what they have in common is computed from their shape.
-/

open SortedList List

namespace Mica

inductive StaticLiteral where
  | bool (value : Bool)
  | symbol (name : String)
  | errorCode (name : String)
  | unit
  | emptyRelation
  deriving DecidableEq

/-- How many rows there are: at least so many and, if there is a bound, at most so many. -/
structure Cardinality where
  min : ℕ
  max : Option ℕ
  deriving DecidableEq

inductive StaticType where
  | dynamic
  | never
  | kind (kind : ValueKind)
  | literal (literal : StaticLiteral)
  | union (types : List StaticType)
  | relation (alternatives : List (List (String × StaticType))) (cardinality : Cardinality)
  | parameter (id : ℕ)
  | typeAlias (id : ℕ) (arguments : List StaticType)

/-- The columns of a row, by name. -/
abbrev RowShape := List (String × StaticType)

structure RelationType where
  alternatives : List RowShape
  cardinality : Cardinality

/-- The type of the relations of a shape. -/
def RelationType.toType (r : RelationType) : StaticType := .relation r.alternatives r.cardinality

/-! ## Cardinalities -/

namespace Cardinality

/-- `Cardinality::EMPTY`. -/
def empty : Cardinality := ⟨0, some 0⟩

/-- `Cardinality::EXACTLY_ONE`. -/
def exactlyOne : Cardinality := ⟨1, some 1⟩

def isSubtypeOf (a b : Cardinality) : Bool :=
  if a.min < b.min then false
  else
    match a.max, b.max with
    | _, none => true
    | some actual, some expected => actual ≤ expected
    | none, some _ => false

/-- So many rows are more than the bound. -/
def exceeds (rows : ℕ) (bound : Option ℕ) : Bool := bound.any fun maximum => maximum < rows

def isDisjoint (a b : Cardinality) : Bool := exceeds b.min a.max || exceeds a.min b.max

/-- The smaller of two bounds. -/
def least : Option ℕ → Option ℕ → Option ℕ
  | some left, some right => some (Nat.min left right)
  | some maximum, none => some maximum
  | none, some maximum => some maximum
  | none, none => none

def intersection (a b : Cardinality) : Option Cardinality :=
  let minimum := Nat.max a.min b.min
  let maximum := least a.max b.max
  if exceeds minimum maximum then none else some ⟨minimum, maximum⟩

def includesZero (a : Cardinality) : Bool := a.min = 0

end Cardinality

/-! ## The order in which types are kept -/

namespace StaticLiteral

def outerKind : StaticLiteral → ValueKind
  | bool _ => .bool
  | symbol _ => .symbol
  | errorCode _ => .errorCode
  | unit => .relation
  | emptyRelation => .relation

/-- The literals that are relations. -/
def relationType : StaticLiteral → Option RelationType
  | unit => some ⟨[[]], .exactlyOne⟩
  | emptyRelation => some ⟨[[]], .empty⟩
  | _ => none

/-- The place of the variant. -/
def index : StaticLiteral → ℕ
  | bool _ => 0
  | symbol _ => 1
  | errorCode _ => 2
  | unit => 3
  | emptyRelation => 4

/-- `Ord for StaticLiteral`. -/
def cmp : StaticLiteral → StaticLiteral → Ordering
  | bool a, bool b => compare a.toNat b.toNat
  | symbol a, symbol b => cmpStr a b
  | errorCode a, errorCode b => cmpStr a b
  | a, b => compare a.index b.index

end StaticLiteral

/-- `Ord for Cardinality`. -/
def Cardinality.cmp (a b : Cardinality) : Ordering :=
  (compare a.min b.min).then (cmpOption compare a.max b.max)

namespace StaticType

/-- The place of the variant. -/
def index : StaticType → ℕ
  | dynamic => 0
  | never => 1
  | kind _ => 2
  | literal _ => 3
  | union _ => 4
  | relation _ _ => 5
  | parameter _ => 6
  | typeAlias _ _ => 7

mutual

/-- `Ord for StaticType`. -/
def cmp : StaticType → StaticType → Ordering
  | .kind a, .kind b => compare a.tag.toNat b.tag.toNat
  | .literal a, .literal b => a.cmp b
  | .union a, .union b => cmpTypes a b
  | .relation a c, .relation b d => (cmpAlternatives a b).then (c.cmp d)
  | .parameter a, .parameter b => compare a b
  | .typeAlias a as, .typeAlias b bs => (compare a b).then (cmpTypes as bs)
  | a, b => compare a.index b.index
termination_by structural a => a

def cmpTypes : List StaticType → List StaticType → Ordering
  | [], [] => .eq
  | [], _ :: _ => .lt
  | _ :: _, [] => .gt
  | a :: as, b :: bs => (cmp a b).then (cmpTypes as bs)
termination_by structural as => as

/-- `Ord for RowShape`. -/
def cmpRow : RowShape → RowShape → Ordering
  | [], [] => .eq
  | [], _ :: _ => .lt
  | _ :: _, [] => .gt
  | (m, a) :: as, (n, b) :: bs => ((cmpStr m n).then (cmp a b)).then (cmpRow as bs)
termination_by structural as => as

def cmpAlternatives : List RowShape → List RowShape → Ordering
  | [], [] => .eq
  | [], _ :: _ => .lt
  | _ :: _, [] => .gt
  | a :: as, b :: bs => (cmpRow a b).then (cmpAlternatives as bs)
termination_by structural as => as

end

/-- Induction on a type, over its members and the columns of its rows. -/
@[elab_as_elim]
theorem induction {P : StaticType → Prop} (t : StaticType) (dynamic : P dynamic) (never : P never)
    (kind : ∀ k, P (kind k)) (literal : ∀ l, P (literal l))
    (union : ∀ types, (∀ t ∈ types, P t) → P (union types))
    (relation : ∀ alternatives c, (∀ row ∈ alternatives, ∀ e ∈ row, P e.2) →
      P (relation alternatives c))
    (parameter : ∀ i, P (parameter i))
    (typeAlias : ∀ i arguments, (∀ t ∈ arguments, P t) → P (typeAlias i arguments)) : P t := by
  refine @StaticType.rec P (fun types => ∀ t ∈ types, P t)
    (fun alternatives => ∀ row ∈ alternatives, ∀ e ∈ row, P e.2) (fun row => ∀ e ∈ row, P e.2)
    (fun e => P e.2) dynamic never kind literal union relation parameter typeAlias
    ?_ ?_ ?_ ?_ ?_ ?_ ?_ t
  · exact nofun
  · exact fun _ _ ht hts => forall_mem_cons.mpr ⟨ht, hts⟩
  · exact nofun
  · exact fun _ _ hr hrs => forall_mem_cons.mpr ⟨hr, hrs⟩
  · exact nofun
  · exact fun _ _ he hes => forall_mem_cons.mpr ⟨he, hes⟩
  · exact fun _ _ ht => ht

theorem cmpTypes_eq_iff : ∀ {as bs : List StaticType}, (∀ a ∈ as, ∀ b, a.cmp b = .eq ↔ a = b) →
    (cmpTypes as bs = .eq ↔ as = bs)
  | [], [], _ => iff_of_true rfl rfl
  | [], _ :: _, _ => iff_of_false nofun nofun
  | _ :: _, [], _ => iff_of_false nofun nofun
  | a :: as, b :: bs, h => by
    obtain ⟨ha, has⟩ := forall_mem_cons.mp h
    rw [cmpTypes, Ordering.then_eq_eq, ha, cmpTypes_eq_iff has, List.cons.injEq]

theorem cmpRow_eq_iff : ∀ {as bs : RowShape}, (∀ e ∈ as, ∀ b, e.2.cmp b = .eq ↔ e.2 = b) →
    (cmpRow as bs = .eq ↔ as = bs)
  | [], [], _ => iff_of_true rfl rfl
  | [], _ :: _, _ => iff_of_false nofun nofun
  | _ :: _, [], _ => iff_of_false nofun nofun
  | (m, a) :: as, (n, b) :: bs, h => by
    obtain ⟨ha, has⟩ := forall_mem_cons.mp h
    rw [cmpRow, Ordering.then_eq_eq, Ordering.then_eq_eq, cmpStr_eq_iff, ha, cmpRow_eq_iff has,
      List.cons.injEq, Prod.mk.injEq]

theorem cmpAlternatives_eq_iff : ∀ {as bs : List RowShape},
    (∀ row ∈ as, ∀ e ∈ row, ∀ b, e.2.cmp b = .eq ↔ e.2 = b) → (cmpAlternatives as bs = .eq ↔ as = bs)
  | [], [], _ => iff_of_true rfl rfl
  | [], _ :: _, _ => iff_of_false nofun nofun
  | _ :: _, [], _ => iff_of_false nofun nofun
  | a :: as, b :: bs, h => by
    obtain ⟨ha, has⟩ := forall_mem_cons.mp h
    rw [cmpAlternatives, Ordering.then_eq_eq, cmpRow_eq_iff ha, cmpAlternatives_eq_iff has,
      List.cons.injEq]

theorem literal_cmp_eq_iff (a b : StaticLiteral) : a.cmp b = .eq ↔ a = b := by
  cases a with
  | bool a =>
    cases b with
    | bool b => cases a <;> cases b <;> simp [StaticLiteral.cmp]
    | _ => simp [StaticLiteral.cmp, StaticLiteral.index]
  | symbol a => cases b <;> simp [StaticLiteral.cmp, StaticLiteral.index, cmpStr_eq_iff]
  | errorCode a => cases b <;> simp [StaticLiteral.cmp, StaticLiteral.index, cmpStr_eq_iff]
  | unit => cases b <;> simp [StaticLiteral.cmp, StaticLiteral.index]
  | emptyRelation => cases b <;> simp [StaticLiteral.cmp, StaticLiteral.index]

theorem cardinality_cmp_eq_iff (a b : Cardinality) : a.cmp b = .eq ↔ a = b := by
  obtain ⟨min, max⟩ := a
  obtain ⟨min', max'⟩ := b
  rw [Cardinality.cmp, Ordering.then_eq_eq, Nat.compare_eq_eq,
    cmpOption_eq_iff fun _ _ _ => Nat.compare_eq_eq, Cardinality.mk.injEq]

/-- **Types compare equal exactly when they are the same.** -/
theorem cmp_eq_iff (a b : StaticType) : a.cmp b = .eq ↔ a = b := by
  induction a using StaticType.induction generalizing b with
  | dynamic => cases b <;> simp [cmp, index]
  | never => cases b <;> simp [cmp, index]
  | kind k =>
    cases b with
    | kind k' =>
      rw [cmp, Nat.compare_eq_eq, UInt8.toNat_inj, ValueKind.tag_injective.eq_iff, kind.injEq]
    | _ => simp [cmp, index]
  | literal l =>
    cases b with
    | literal l' => rw [cmp, literal_cmp_eq_iff, literal.injEq]
    | _ => simp [cmp, index]
  | union types ih =>
    cases b with
    | union types' => rw [cmp, cmpTypes_eq_iff ih, union.injEq]
    | _ => simp [cmp, index]
  | relation alternatives c ih =>
    cases b with
    | relation alternatives' c' =>
      rw [cmp, Ordering.then_eq_eq, cmpAlternatives_eq_iff ih, cardinality_cmp_eq_iff, relation.injEq]
    | _ => simp [cmp, index]
  | parameter i =>
    cases b with
    | parameter i' => rw [cmp, Nat.compare_eq_eq, parameter.injEq]
    | _ => simp [cmp, index]
  | typeAlias i arguments ih =>
    cases b with
    | typeAlias i' arguments' =>
      rw [cmp, Ordering.then_eq_eq, Nat.compare_eq_eq, cmpTypes_eq_iff ih, typeAlias.injEq]
    | _ => simp [cmp, index]

instance : DecidableEq StaticType := fun a b => decidable_of_iff _ (cmp_eq_iff a b)

/-! ### How deep types are nested -/

mutual

def height : StaticType → ℕ
  | union types => heightTypes types + 1
  | relation alternatives _ => heightAlternatives alternatives + 1
  | typeAlias _ arguments => heightTypes arguments + 1
  | _ => 0
termination_by structural t => t

def heightTypes : List StaticType → ℕ
  | [] => 0
  | t :: ts => Nat.max (height t) (heightTypes ts)
termination_by structural ts => ts

def heightRow : RowShape → ℕ
  | [] => 0
  | (_, t) :: columns => Nat.max (height t) (heightRow columns)
termination_by structural columns => columns

def heightAlternatives : List RowShape → ℕ
  | [] => 0
  | row :: rows => Nat.max (heightRow row) (heightAlternatives rows)
termination_by structural rows => rows

end

end StaticType

end Mica
