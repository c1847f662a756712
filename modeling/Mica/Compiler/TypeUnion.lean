import Mica.Compiler.TypeSound
import Mica.Lib.Maximal

/-!
# Compiler/TypeUnion — what a union denotes

`StaticType::union` gathers the members, and drops each that a different member is above.  Two
different members that are subtypes of each other are both dropped, so the union is the union of its
members unless values are lost there (`unionTypes_exact`).

* `StaticType.Covered` — every value of a member on a circle of subtypes is of a member that is kept.
-/

open Relation List

namespace Mica

namespace StaticType

variable {I : Interning} {v : Value} {members types : List StaticType} {m : StaticType}

/-! ## Sorting -/

theorem mem_destutter' {α : Type} [DecidableEq α] {x : α} : ∀ {l : List α} {y : α},
    x ∈ l.destutter' (· ≠ ·) y ↔ x = y ∨ x ∈ l
  | [], y => by simp
  | z :: l, y => by
    rw [destutter'_cons]
    split
    · rw [mem_cons, mem_destutter', mem_cons]
    · next h =>
      obtain rfl : y = z := not_not.mp h
      rw [mem_destutter', mem_cons]
      tauto

theorem mem_destutter {α : Type} [DecidableEq α] {x : α} {l : List α} :
    x ∈ l.destutter (· ≠ ·) ↔ x ∈ l := by
  cases l with
  | nil => simp
  | cons y l => rw [destutter_cons', mem_destutter', mem_cons]

@[simp] theorem mem_sortDedup : m ∈ sortDedup members ↔ m ∈ members :=
  mem_destutter.trans (mem_insertionSort Le)

/-! ## Gathering the members -/

variable {names : Set String}

/-- A different member is above one. -/
def Above (members : List StaticType) (m k : StaticType) : Prop :=
  m ∈ members ∧ k ∈ members ∧ m ≠ k ∧ m.isSubtypeOf k = true

/-- **A member on a circle of subtypes**: of different members, each a subtype of the next. -/
def OnCircle (members : List StaticType) (m : StaticType) : Prop := TransGen (Above members) m m

/-- **The values on circles are not lost.** -/
def Kept (I : Interning) (members : List StaticType) : Prop :=
  ∀ m, OnCircle members m → ∀ v, m.Admits I.symbol v →
    ∃ k ∈ members, isKept members k = true ∧ k.Admits I.symbol v

/-- **No values of the members are lost**: those of members on a circle of subtypes are of a member
that is kept. -/
def Covered (I : Interning) (types : List StaticType) : Prop :=
  ∀ members, gather (types.map canonical) = some members → Kept I members

end StaticType

end Mica
