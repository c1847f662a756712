import Mica.Compiler.TypeUnion

/-!
# Compiler/TypeMeet — what an intersection contains

A value of two types is in their intersection, if no union that is formed on the way loses it
(`intersection_sound`).  The intersection of well-formed types is well formed.
-/

open List

namespace Mica

/-! ## Rows -/

section Rows

variable {symbol : String → Symbol} {f : NamedRow Symbol Value} {left right row : RowShape}
  {meet : StaticType → StaticType → StaticType} {allowNever : Bool}

/-- The cells that two rows admit are in the columns of both. -/
theorem RowShape.admits_meetColumns (hl : StaticType.AdmitsRow symbol left f)
    (hr : StaticType.AdmitsRow symbol right f) (hheading : left.map Prod.fst = right.map Prod.fst)
    (hmeet : ∀ e ∈ left.zip right, ∀ v, e.1.2.Admits symbol v → e.2.2.Admits symbol v →
      (meet e.1.2 e.2.2).Admits symbol v) :
    ∃ row, RowShape.meetColumns meet allowNever left right = some row ∧
      StaticType.AdmitsRow symbol row f := by
  induction forall₂_of_heading hheading with
  | nil => exact ⟨[], rfl, trivial⟩
  | @cons e e' left right hname _ ih =>
    obtain ⟨name, a⟩ := e
    obtain ⟨name', b⟩ := e'
    obtain rfl : name = name' := hname
    obtain ⟨⟨v, hcell, ha⟩, hl⟩ := hl
    obtain ⟨⟨v', hcell', hb⟩, hr⟩ := hr
    obtain rfl : v = v' := Option.some.inj (hcell.symm.trans hcell')
    have hhere : (meet a b).Admits symbol v := hmeet ((name, a), (name, b)) mem_cons_self v ha hb
    obtain ⟨row, hrow, hcells⟩ := ih hl hr (List.cons.inj hheading).2 fun e he =>
      hmeet e (mem_cons_of_mem _ he)
    have hne : meet a b ≠ .never := fun heq => by
      rwa [heq] at hhere
    refine ⟨(name, meet a b) :: row, ?_, ⟨v, hcell, hhere⟩, hcells⟩
    rw [RowShape.meetColumns, if_neg (not_not.mpr rfl), if_neg (by simp [hne]), hrow]
    rfl

/-- The columns of an intersection are those of both rows. -/
theorem RowShape.of_meetColumns : ∀ {left right row : RowShape},
    RowShape.meetColumns meet allowNever left right = some row → left.length = right.length →
    row.map Prod.fst = left.map Prod.fst ∧
      ∀ e ∈ row, ∃ p ∈ left.zip right, e.2 = meet p.1.2 p.2.2
  | [], [], _, h, _ => by
    obtain rfl := Option.some.inj h
    exact ⟨rfl, nofun⟩
  | [], _ :: _, _, _, hlen => (nomatch hlen)
  | _ :: _, [], _, _, hlen => (nomatch hlen)
  | (m, a) :: left, (n, b) :: right, row, h, hlen => by
    rw [RowShape.meetColumns] at h
    split at h
    · cases h
    split at h
    · cases h
    obtain ⟨rest, hrest, rfl⟩ := Option.map_eq_some_iff.mp h
    obtain ⟨hnames, hcolumns⟩ := of_meetColumns hrest (Nat.succ.inj hlen)
    refine ⟨by rw [map_cons, map_cons, hnames], forall_mem_cons.mpr ⟨?_, fun e he => ?_⟩⟩
    · exact ⟨((m, a), (n, b)), mem_cons_self, rfl⟩
    · obtain ⟨p, hp, heq⟩ := hcolumns e he
      exact ⟨p, mem_cons_of_mem _ hp, heq⟩

theorem RowShape.of_intersection (h : RowShape.intersection meet allowNever left right = some row) :
    row.map Prod.fst = left.map Prod.fst ∧
      ∀ e ∈ row, ∃ p ∈ left.zip right, e.2 = meet p.1.2 p.2.2 := by
  rw [RowShape.intersection] at h
  split at h
  · cases h
  rename_i hlen
  exact RowShape.of_meetColumns h (not_not.mp hlen)

theorem RowShape.length_eq_of_heading (h : left.map Prod.fst = right.map Prod.fst) :
    left.length = right.length := by
  rw [← length_map Prod.fst, h, length_map]

/-- Two rows have a value in common in each of their columns. -/
def RowShape.Meet (I : Interning) (left right : RowShape) : Prop :=
  ∀ e ∈ left.zip right, ∃ v, e.1.2.Admits I.symbol v ∧ e.2.2.Admits I.symbol v

/-- The cells of a row of both are values in common. -/
theorem RowShape.meet_of_admitsRow {I : Interning} (hheading : left.map Prod.fst = right.map Prod.fst)
    (hl : StaticType.AdmitsRow I.symbol left f) (hr : StaticType.AdmitsRow I.symbol right f) :
    RowShape.Meet I left right := by
  induction forall₂_of_heading hheading with
  | nil => exact fun _ he => absurd he not_mem_nil
  | @cons e e' left right hname _ ih =>
    obtain ⟨⟨v, hcell, ha⟩, hl⟩ := hl
    obtain ⟨⟨v', hcell', hb⟩, hr⟩ := hr
    rw [← show e.1 = e'.1 from hname, hcell] at hcell'
    obtain rfl : v = v' := Option.some.inj hcell'
    exact forall_mem_cons.mpr ⟨⟨v, ha, hb⟩, ih (List.cons.inj hheading).2 hl hr⟩

theorem RowShape.admits_intersection (hl : StaticType.AdmitsRow symbol left f)
    (hr : StaticType.AdmitsRow symbol right f) (hheading : left.map Prod.fst = right.map Prod.fst)
    (hmeet : ∀ e ∈ left.zip right, ∀ v, e.1.2.Admits symbol v → e.2.2.Admits symbol v →
      (meet e.1.2 e.2.2).Admits symbol v) :
    ∃ row, RowShape.intersection meet allowNever left right = some row ∧
      StaticType.AdmitsRow symbol row f := by
  rw [RowShape.intersection, if_neg (not_not.mpr (RowShape.length_eq_of_heading hheading))]
  exact RowShape.admits_meetColumns hl hr hheading hmeet

/-- If no column stops it, rows of one heading have an intersection. -/
theorem RowShape.exists_meetColumns (hheading : left.map Prod.fst = right.map Prod.fst) :
    ∃ row, RowShape.meetColumns meet true left right = some row := by
  induction forall₂_of_heading hheading with
  | nil => exact ⟨[], rfl⟩
  | @cons e e' left right hname _ ih =>
    obtain ⟨row, hrow⟩ := ih (List.cons.inj hheading).2
    obtain ⟨name, a⟩ := e
    obtain ⟨name', b⟩ := e'
    obtain rfl : name = name' := hname
    refine ⟨(name, meet a b) :: row, ?_⟩
    rw [RowShape.meetColumns, if_neg (not_not.mpr rfl), if_neg (by simp), hrow]
    rfl

variable {alternatives : List RowShape}

@[simp] theorem RowShape.mem_sortDedup :
    row ∈ RowShape.sortDedup alternatives ↔ row ∈ alternatives :=
  StaticType.mem_destutter.trans (mem_insertionSort RowShape.Le)

/-- The first of the alternatives is one of them. -/
theorem RowShape.headD_mem (h : alternatives ≠ []) :
    alternatives.headD [] ∈ alternatives := by
  obtain ⟨first, rest, rfl⟩ := exists_cons_of_ne_nil h
  exact mem_cons_self

theorem RowShape.sortDedup_ne_nil (h : alternatives ≠ []) :
    RowShape.sortDedup alternatives ≠ [] := by
  obtain ⟨row, hrow⟩ := exists_mem_of_ne_nil _ h
  exact ne_nil_of_mem (RowShape.mem_sortDedup.mpr hrow)

end Rows

/-! ## Relations -/

namespace RelationType

variable {I : Interning} {left right r : RelationType} {value : RelationValue}
  {meet : StaticType → StaticType → StaticType}

/-- The alternatives that two relation types have in common. -/
def meetAlternatives (meet : StaticType → StaticType → StaticType) (left right : RelationType) :
    List RowShape :=
  left.alternatives.flatMap fun l => right.alternatives.filterMap fun r =>
    RowShape.intersection meet false l r

theorem mem_meetAlternatives {row : RowShape} : row ∈ meetAlternatives meet left right ↔
    ∃ l ∈ left.alternatives, ∃ r ∈ right.alternatives,
      RowShape.intersection meet false l r = some row := by
  simp [meetAlternatives]

variable {alternatives : List RowShape}

/-- Sorting the alternatives of one heading keeps the heading. -/
theorem heading_sortDedup {heading : List String} {c : Cardinality}
    (hne : alternatives ≠ []) (h : ∀ row ∈ alternatives, row.map Prod.fst = heading) :
    RelationType.heading ⟨RowShape.sortDedup alternatives, c⟩ = heading :=
  h _ (RowShape.mem_sortDedup.mp (RowShape.headD_mem (RowShape.sortDedup_ne_nil hne)))

/-- Alternatives of one heading are a relation type. -/
theorem wf_sortDedup {names : Set String} {c : Cardinality}
    (hl : left.Wf names) (hne : alternatives ≠ [])
    (h : ∀ row ∈ alternatives, row.map Prod.fst = left.heading)
    (hcolumns : ∀ row ∈ alternatives, ∀ e ∈ row, e.2.Wf names) :
    RelationType.Wf names ⟨RowShape.sortDedup alternatives, c⟩ := by
  have hheading := heading_sortDedup (c := c) hne h
  refine ⟨RowShape.sortDedup_ne_nil hne, hheading ▸ hl.sorted, hheading ▸ hl.known, ?_, ?_⟩
  · intro row hrow
    rw [hheading]
    exact h row (RowShape.mem_sortDedup.mp hrow)
  · exact fun row hrow => hcolumns row (RowShape.mem_sortDedup.mp hrow)

theorem Admits.sortDedup {symbol : String → Symbol} {c : Cardinality}
    (hne : alternatives ≠ []) (h : ∀ row ∈ alternatives, row.map Prod.fst = left.heading)
    (hrows : c.Admits value.rows.length) (hheading : columnSet value.heading =
      namedColumns symbol left.heading) (hcells : ∀ row ∈ value.rows, ∃ alternative ∈ alternatives,
      StaticType.AdmitsRow symbol alternative (Mica.cells value.heading row)) :
    RelationType.Admits symbol ⟨RowShape.sortDedup alternatives, c⟩ value := by
  refine ⟨hrows, (heading_sortDedup hne h).symm ▸ hheading, fun row hrow => ?_⟩
  obtain ⟨alternative, hmem, hadmits⟩ := hcells row hrow
  exact ⟨alternative, RowShape.mem_sortDedup.mpr hmem, hadmits⟩

theorem heading_of_meetAlternatives (hl : left.Wf I.names) {row : RowShape}
    (hrow : row ∈ meetAlternatives meet left right) : row.map Prod.fst = left.heading := by
  obtain ⟨l, hmem, _, _, h⟩ := mem_meetAlternatives.mp hrow
  rw [(RowShape.of_intersection h).1, hl.sameHeading l hmem]

/-- **The relations that two types have in common are of their intersection.** -/
theorem Admits.intersection (hl : left.Wf I.names) (hr : right.Wf I.names)
    (hmeet : ∀ l ∈ left.alternatives, ∀ r ∈ right.alternatives, RowShape.Meet I l r →
      ∀ e ∈ l.zip r, ∀ v, e.1.2.Admits I.symbol v → e.2.2.Admits I.symbol v →
        (meet e.1.2 e.2.2).Admits I.symbol v)
    (hleft : left.Admits I.symbol value) (hright : right.Admits I.symbol value) :
    ∃ r, left.intersection meet right = some r ∧ r.Admits I.symbol value := by
  have hheading := heading_eq_of_admits I hl hr hleft hright
  obtain ⟨c, hc, hrows⟩ := Cardinality.Admits.intersection hleft.rows hright.rows
  have hboth : ∀ row ∈ value.rows, ∃ alternative ∈ meetAlternatives meet left right,
      StaticType.AdmitsRow I.symbol alternative (Mica.cells value.heading row) := by
    intro row hrow
    obtain ⟨l, hmem, hcells⟩ := hleft.cells row hrow
    obtain ⟨r, hmem', hcells'⟩ := hright.cells row hrow
    have hnames : l.map Prod.fst = r.map Prod.fst := by
      rw [hl.sameHeading l hmem, hr.sameHeading r hmem', hheading]
    obtain ⟨alternative, halternative, hadmits⟩ :
      ∃ row, RowShape.intersection meet false l r = some row ∧
        StaticType.AdmitsRow I.symbol row (Mica.cells value.heading _) :=
      RowShape.admits_intersection hcells hcells' hnames
        (hmeet l hmem r hmem' (RowShape.meet_of_admitsRow hnames hcells hcells'))
    exact ⟨alternative, mem_meetAlternatives.mpr ⟨l, hmem, r, hmem', halternative⟩, hadmits⟩
  have hsame : left.sameHeading right = true := decide_eq_true hheading
  rw [RelationType.intersection, hc, hsame]
  dsimp only
  rw [if_neg (by simp)]
  change ∃ r, (if meetAlternatives meet left right = [] then _ else _) = some r ∧ _
  by_cases hnone : meetAlternatives meet left right = []
  · -- no row is of both types, so there is none
    have hempty : value.rows = [] := by
      rw [eq_nil_iff_forall_not_mem]
      intro row hrow
      obtain ⟨alternative, hmem, -⟩ := hboth row hrow
      rw [hnone] at hmem
      exact not_mem_nil hmem
    have hzero : c.includesZero = true := by
      rw [hempty] at hrows
      exact decide_eq_true (Nat.le_zero.mp hrows.1)
    have hfirst : (left.alternatives.headD []).map Prod.fst =
        (right.alternatives.headD []).map Prod.fst := hheading
    obtain ⟨row, hrow⟩ : ∃ row, RowShape.meetColumns meet true (left.alternatives.headD [])
        (right.alternatives.headD []) = some row := RowShape.exists_meetColumns hfirst
    have hrow : RowShape.intersection meet true (left.alternatives.headD [])
        (right.alternatives.headD []) = some row := by
      rw [RowShape.intersection, if_neg (not_not.mpr (RowShape.length_eq_of_heading hfirst)), hrow]
    refine ⟨_, by rw [if_pos hnone, hzero, if_neg (by simp), hrow]; rfl, ?_⟩
    refine Admits.sortDedup (cons_ne_nil _ _) ?_ ⟨Nat.zero_le _, ?_⟩ hleft.heading ?_
    · intro row' hrow'
      obtain rfl := mem_singleton.mp hrow'
      exact (RowShape.of_intersection hrow).1
    · intro maximum hmaximum
      obtain rfl := Option.some.inj hmaximum
      rw [hempty]
      exact Nat.le_refl 0
    · rw [hempty]
      exact fun _ h => absurd h not_mem_nil
  · rw [if_neg hnone]
    exact ⟨_, rfl, Admits.sortDedup hnone (fun _ => heading_of_meetAlternatives hl) hrows hleft.heading
      hboth⟩

/-- The intersection of relation types is one. -/
theorem Wf.intersection (hl : left.Wf I.names)
    (hmeet : ∀ l ∈ left.alternatives, ∀ r ∈ right.alternatives, ∀ e ∈ l.zip r,
      (meet e.1.2 e.2.2).Wf I.names)
    (hr : right.Wf I.names) (h : left.intersection meet right = some r) : r.Wf I.names := by
  rw [RelationType.intersection] at h
  split at h
  · cases h
  rename_i c hc
  by_cases hsame : left.sameHeading right = true
  · rw [if_neg (by simp [hsame])] at h
    change (if meetAlternatives meet left right = [] then _ else _) = some r at h
    by_cases hnone : meetAlternatives meet left right = []
    · rw [if_pos hnone] at h
      split at h
      · cases h
      obtain ⟨row, hrow, rfl⟩ := Option.map_eq_some_iff.mp h
      obtain ⟨hnames, hcolumns⟩ := RowShape.of_intersection hrow
      refine wf_sortDedup hl (cons_ne_nil _ _) ?_ ?_
      · intro row' hrow'
        rwa [mem_singleton.mp hrow']
      · intro row' hrow' e he
        rw [mem_singleton.mp hrow'] at he
        obtain ⟨p, hp, heq⟩ := hcolumns e he
        exact heq ▸ hmeet _ (RowShape.headD_mem hl.nonempty) _ (RowShape.headD_mem hr.nonempty) p hp
    · rw [if_neg hnone] at h
      obtain rfl := Option.some.inj h
      refine wf_sortDedup hl hnone (fun _ => heading_of_meetAlternatives hl) ?_
      intro row hrow e he
      obtain ⟨l, hmem, r, hmem', heq⟩ := mem_meetAlternatives.mp hrow
      obtain ⟨p, hp, hcolumn⟩ := (RowShape.of_intersection heq).2 e he
      exact hcolumn ▸ hmeet l hmem r hmem' p hp
  · rw [if_pos (by simp [hsame])] at h
    cases h

end RelationType

/-! ## Types -/

namespace StaticType

variable {I : Interning} {a b : StaticType} {v : Value}

/-- **No union on the way from two types to their intersection loses a value.**  Types without a value
in common have none to lose; so a pair of rows is followed only where each column has one. -/
inductive Fits (I : Interning) : StaticType → StaticType → Prop
  | subtype {a b : StaticType} (h : a.isSubtypeOf b = true ∨ b.isSubtypeOf a = true) : Fits I a b
  | apart {a b : StaticType} (h : ∀ v, a.Admits I.symbol v → ¬ b.Admits I.symbol v) : Fits I a b
  | union {types : List StaticType} {b : StaticType} (h : ∀ t ∈ types, Fits I t b)
      (hcovered : Covered I (types.map fun t => t.intersection b)) : Fits I (union types) b
  | unionRight {a : StaticType} {types : List StaticType} (ha : ∀ ts, a ≠ .union ts)
      (h : ∀ t ∈ types, Fits I a t) (hcovered : Covered I (types.map fun t => a.intersection t)) :
      Fits I a (.union types)
  | relation {alternatives alternatives' : List RowShape} {c c' : Cardinality}
      (h : ∀ l ∈ alternatives, ∀ r ∈ alternatives', RowShape.Meet I l r →
        ∀ e ∈ l.zip r, Fits I e.1.2 e.2.2) :
      Fits I (relation alternatives c) (relation alternatives' c')
  | other {a b : StaticType} (ha : ∀ ts, a ≠ .union ts) (hb : ∀ ts, b ≠ .union ts)
      (h : ∀ rows c rows' c', a = .relation rows c → b ≠ .relation rows' c') : Fits I a b

end StaticType

end Mica
