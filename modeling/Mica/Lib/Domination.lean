import Mathlib.Data.Fintype.Card
import Mathlib.Data.Set.Finite.Basic

/-!
# Lib/Domination — keeping what nothing dominates

A relation that is irreflexive and transitive on the members of a list has no cycles there, so every
member is dominated by one that is not dominated itself, or is such a one.
-/

/-- The relation is a strict order among the members. -/
structure StrictOn {α : Type} (dominates : α → α → Prop) (members : List α) : Prop where
  irrefl : ∀ a ∈ members, ¬ dominates a a
  trans : ∀ a ∈ members, ∀ b ∈ members, ∀ c ∈ members,
    dominates a b → dominates b c → dominates a c

namespace StrictOn

variable {α : Type} {dominates : α → α → Prop} {members : List α}

/-- Nothing dominates the member. -/
def Undominated (dominates : α → α → Prop) (members : List α) (a : α) : Prop :=
  ∀ b ∈ members, ¬ dominates b a

/-- **Every member is undominated or below an undominated one.** -/
theorem exists_undominated (h : StrictOn dominates members) {a : α} (ha : a ∈ members) :
    Undominated dominates members a ∨
      ∃ b ∈ members, Undominated dominates members b ∧ dominates b a := by
  have htrans : IsTrans {b // b ∈ members} fun b c => dominates b.1 c.1 :=
    ⟨fun b c d => h.trans b.1 b.2 c.1 c.2 d.1 d.2⟩
  have hirrefl : Std.Irrefl fun b c : {b // b ∈ members} => dominates b.1 c.1 :=
    ⟨fun b => h.irrefl b.1 b.2⟩
  have hfinite : Finite {b // b ∈ members} := members.finite_toSet
  have hwf : WellFounded fun b c : {b // b ∈ members} => dominates b.1 c.1 :=
    Finite.wellFounded_of_trans_of_irrefl _
  -- on the way up the dominators only get fewer
  refine hwf.induction (C := fun b => Undominated dominates members b.1 ∨
    ∃ c ∈ members, Undominated dominates members c ∧ dominates c b.1) ⟨a, ha⟩ fun b ih => ?_
  by_cases hb : Undominated dominates members b.1
  · exact Or.inl hb
  unfold Undominated at hb
  push Not at hb
  obtain ⟨c, hc, hcb⟩ := hb
  rcases ih ⟨c, hc⟩ hcb with hun | ⟨d, hd, hun, hdc⟩
  · exact Or.inr ⟨c, hc, hun, hcb⟩
  · exact Or.inr ⟨d, hd, hun, h.trans d hd c hc b.1 b.2 hdc hcb⟩

end StrictOn
