import Mathlib.Data.Set.Card
import Mathlib.Data.Set.Lattice
import Mathlib.Order.CompletePartialOrder

/-!
# Lib/NamedRows — relations with named columns

A row gives each column of a heading a cell; a table is a heading and a set of rows over it.  Columns
have no order, so the operations are those of set theory, and the joins of several tables are the
rows that restrict to a row of each.
-/

open Set

/-- A row: the cells by column, with none outside its heading. -/
abbrev NamedRow (κ ν : Type) := κ → Option ν

namespace NamedRow

variable {κ ν : Type}

/-- The row covers exactly the columns `S`. -/
def Over (S : Set κ) (f : NamedRow κ ν) : Prop := ∀ c, (f c).isSome ↔ c ∈ S

open Classical in
/-- The cells of the columns in `S`. -/
noncomputable def restrict (S : Set κ) (f : NamedRow κ ν) : NamedRow κ ν :=
  fun c => if c ∈ S then f c else none

variable {S T : Set κ} {f g : NamedRow κ ν} {c : κ}

theorem restrict_of_mem (h : c ∈ S) : restrict S f c = f c := if_pos h

theorem restrict_of_notMem (h : c ∉ S) : restrict S f c = none := if_neg h

theorem Over.eq_none (h : f.Over S) (hc : c ∉ S) : f c = none :=
  Option.not_isSome_iff_eq_none.mp fun hsome => hc ((h c).mp hsome)

theorem Over.restrict (h : f.Over S) (hT : T ⊆ S) : (restrict T f).Over T := by
  intro c
  by_cases hc : c ∈ T
  · rw [restrict_of_mem hc]
    exact iff_of_true ((h c).mpr (hT hc)) hc
  · rw [restrict_of_notMem hc]
    exact iff_of_false nofun hc

theorem restrict_restrict (h : T ⊆ S) : restrict T (restrict S f) = restrict T f := by
  funext c
  by_cases hc : c ∈ T
  · rw [restrict_of_mem hc, restrict_of_mem hc, restrict_of_mem (h hc)]
  · rw [restrict_of_notMem hc, restrict_of_notMem hc]

/-- A row is the cells it has. -/
theorem Over.restrict_self (h : f.Over S) : NamedRow.restrict S f = f := by
  funext c
  by_cases hc : c ∈ S
  · exact restrict_of_mem hc
  · rw [restrict_of_notMem hc, h.eq_none hc]

end NamedRow

/-- **A table**: a heading and rows over it. -/
@[ext] structure NamedTable (κ ν : Type) where
  heading : Set κ
  rows : Set (NamedRow κ ν)
  covers : ∀ f ∈ rows, f.Over heading

namespace NamedTable

variable {κ ν : Type}

/-- The cells of some columns. -/
noncomputable def project (S : Set κ) (t : NamedTable κ ν) : NamedTable κ ν where
  heading := t.heading ∩ S
  rows := NamedRow.restrict (t.heading ∩ S) '' t.rows
  covers := by
    rintro _ ⟨f, hf, rfl⟩
    exact (t.covers f hf).restrict inter_subset_left

/-- The rows of either of two tables with one heading. -/
def union (t u : NamedTable κ ν) (h : t.heading = u.heading) : NamedTable κ ν where
  heading := t.heading
  rows := t.rows ∪ u.rows
  covers f hf := hf.elim (t.covers f) fun hf => h ▸ u.covers f hf

/-- The rows of one table that are not in the other. -/
def difference (t u : NamedTable κ ν) : NamedTable κ ν where
  heading := t.heading
  rows := t.rows \ u.rows
  covers f hf := t.covers f hf.1

/-- **The natural join**: the rows over both headings that restrict to a row of each table. -/
noncomputable def join (t u : NamedTable κ ν) : NamedTable κ ν where
  heading := t.heading ∪ u.heading
  rows := {f | f.Over (t.heading ∪ u.heading) ∧ NamedRow.restrict t.heading f ∈ t.rows ∧
    NamedRow.restrict u.heading f ∈ u.rows}
  covers _ hf := hf.1

variable {t u v : NamedTable κ ν}

theorem union_comm (h : t.heading = u.heading) : t.union u h = u.union t h.symm :=
  NamedTable.ext h (Set.union_comm _ _)

theorem union_assoc (h : t.heading = u.heading) (h' : u.heading = v.heading) :
    (t.union u h).union v (h.trans h') = t.union (u.union v h') h :=
  NamedTable.ext rfl (Set.union_assoc _ _ _)

theorem join_comm (t u : NamedTable κ ν) : t.join u = u.join t := by
  refine NamedTable.ext (Set.union_comm _ _) ?_
  ext f
  change _ ∧ _ ∧ _ ↔ _ ∧ _ ∧ _
  rw [Set.union_comm, and_comm (a := _ ∈ t.rows)]

/-- A row of a join of joins, from the three tables. -/
theorem mem_join_join {f : NamedRow κ ν} :
    f ∈ ((t.join u).join v).rows ↔ f.Over (t.heading ∪ u.heading ∪ v.heading) ∧
      NamedRow.restrict t.heading f ∈ t.rows ∧ NamedRow.restrict u.heading f ∈ u.rows ∧
      NamedRow.restrict v.heading f ∈ v.rows := by
  change _ ∧ (_ ∧ NamedRow.restrict _ (NamedRow.restrict (t.heading ∪ u.heading) f) ∈ _ ∧
    NamedRow.restrict _ (NamedRow.restrict (t.heading ∪ u.heading) f) ∈ _) ∧ _ ↔ _
  rw [NamedRow.restrict_restrict subset_union_left, NamedRow.restrict_restrict subset_union_right]
  constructor
  · rintro ⟨hover, ⟨-, ht, hu⟩, hv⟩
    exact ⟨hover, ht, hu, hv⟩
  · rintro ⟨hover, ht, hu, hv⟩
    exact ⟨hover, ⟨hover.restrict subset_union_left, ht, hu⟩, hv⟩

theorem join_assoc (t u v : NamedTable κ ν) : (t.join u).join v = t.join (u.join v) := by
  refine NamedTable.ext (Set.union_assoc _ _ _) ?_
  ext f
  rw [join_comm t (u.join v), mem_join_join, mem_join_join]
  have hheading : t.heading ∪ u.heading ∪ v.heading = u.heading ∪ v.heading ∪ t.heading := by
    rw [Set.union_comm _ t.heading, Set.union_assoc]
  rw [hheading]
  tauto

/-! ## How many rows -/

end NamedTable
