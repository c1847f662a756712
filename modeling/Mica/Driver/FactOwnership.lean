import Mica.Driver.VolatileFacts
import Mica.Lib.Collect

/-!
# Driver/FactOwnership — the owners of a fact are counted exactly

In every state the driver comes to, the owners of a fact are the open endpoints that have it in a scope
(`FactWorld.Counted`).  A fact that a first owner brings is asserted unless a scan shows it already, so
where scans show nothing but stored rows of it, it is stored exactly while it has owners or was
stored at the start (`FactWorld.Held`).
-/

open SortedList List SortedMap SortedSet
open Except (ok.inj)
open Option (some.inj)

namespace Mica

/-! ## The rows of named facts -/

namespace FactCatalog

variable {c : FactCatalog} {rows next : Finset Fact} {f g : NamedFact} {row : Fact}

/-- The row of a named fact. -/
def rowOf (c : FactCatalog) (f : NamedFact) : Option Fact :=
  (c.relationNamed f.relation).map fun e => (e.1, f.tuple)

theorem relationNamed_eq_some {name : Symbol} {e : RelationId × RelationMetadata}
    (h : c.relationNamed name = some e) : c.relations.get? e.1 = some e.2 ∧ e.2.name = name :=
  ⟨get?_eq_some.mpr (mem_of_find?_eq_some h), by simpa using find?_some h⟩

theorem rowOf_injective (hf : c.rowOf f = some row) (hg : c.rowOf g = some row) : f = g := by
  obtain ⟨e, he, rfl⟩ := Option.map_eq_some_iff.mp hf
  obtain ⟨e', he', heq⟩ := Option.map_eq_some_iff.mp hg
  obtain ⟨hid, htuple⟩ := Prod.mk.injEq _ _ _ _ ▸ heq
  have hmeta := (relationNamed_eq_some he).1
  rw [← hid, (relationNamed_eq_some he').1] at hmeta
  have hname : g.relation = f.relation := by
    rw [← (relationNamed_eq_some he).2, ← (relationNamed_eq_some he').2, some.inj hmeta]
  cases f
  cases g
  cases hname
  cases htuple
  rfl

theorem rowOf_of_volatileRow (h : c.volatileRow f = .ok row) : c.rowOf f = some row := by
  unfold volatileRow at h
  unfold rowOf
  split at h
  · cases h
  rename_i id metadata hnamed
  split_ifs at h
  rw [hnamed]
  exact congrArg some (ok.inj h)

variable {tuples : List NamedFact}

theorem mem_required {facts : List Fact}
    (h : c.volatileTupleRelationsRequired tuples = .ok facts) (row : Fact) :
    row ∈ facts ↔ ∃ f ∈ tuples, c.rowOf f = some row := by
  have hall := Collect.mapM_eq_ok.mp h
  constructor
  · intro hrow
    obtain ⟨f, hf, hok⟩ := Collect.exists_of_mem_right hall row hrow
    exact ⟨f, hf, rowOf_of_volatileRow hok⟩
  · rintro ⟨f, hf, hrow⟩
    obtain ⟨row', hrow', hok⟩ := Collect.exists_of_mem_left hall f hf
    rw [rowOf_of_volatileRow hok] at hrow
    exact some.inj hrow ▸ hrow'

theorem exists_rowOf_of_required {facts : List Fact}
    (h : c.volatileTupleRelationsRequired tuples = .ok facts) (hf : f ∈ tuples) :
    ∃ row, c.rowOf f = some row := by
  obtain ⟨row, -, hok⟩ := Collect.exists_of_mem_left (Collect.mapM_eq_ok.mp h) f hf
  exact ⟨row, rowOf_of_volatileRow hok⟩

/-- **The relation is not one of those that opening and closing an endpoint write.** -/
def Ordinary (c : FactCatalog) (f : NamedFact) : Prop :=
  ∀ row, c.rowOf f = some row → row.1 ∉ endpointRelations

/-- **The fact is stored.** -/
def Stored (c : FactCatalog) (rows : Finset Fact) (f : NamedFact) : Prop :=
  ∃ row, c.rowOf f = some row ∧ row ∈ rows

/-- **The rules derive the fact.** -/
def DerivedFact (c : FactCatalog) (rows : Finset Fact) (f : NamedFact) : Prop :=
  ∃ row derived, c.rowOf f = some row ∧ c.derived rows row.1 = .ok derived ∧ row.2 ∈ derived

/-- **The fact is in its relation**: it is stored, or the rules derive it. -/
def Present (c : FactCatalog) (rows : Finset Fact) (f : NamedFact) : Prop :=
  c.Stored rows f ∨ c.DerivedFact rows f

theorem containsNamedTuple_spec {present : Bool} (h : c.containsNamedTuple rows f = .ok present) :
    (∃ row, c.rowOf f = some row) ∧ (present = true ↔ c.Present rows f) := by
  unfold containsNamedTuple at h
  split at h
  · cases h
  rename_i e hnamed
  have hrow : c.rowOf f = some (e.1, f.tuple) := by rw [rowOf, hnamed]; rfl
  refine ⟨⟨_, hrow⟩, ?_⟩
  have hcontains : c.contains rows e.1 f.tuple = .ok present := by
    rcases hfound : c.contains rows e.1 f.tuple with _ | found
    · cases hfound ▸ h
    rw [hfound] at h
    exact congrArg Except.ok (ok.inj h)
  unfold contains at hcontains
  simp only [(relationNamed_eq_some hnamed).1] at hcontains
  split_ifs at hcontains
  rcases hderived : c.derived rows e.1 with _ | derived
  · cases hderived ▸ hcontains
  simp only [hderived] at hcontains
  obtain rfl := ok.inj hcontains
  rw [Bool.or_eq_true, decide_eq_true_iff, decide_eq_true_iff]
  refine or_congr ⟨fun h => ⟨_, hrow, h⟩, ?_⟩ ⟨fun h => ⟨_, derived, hrow, hderived, h⟩, ?_⟩
  · rintro ⟨row, hrow', hmem⟩
    exact some.inj (hrow.symm.trans hrow') ▸ hmem
  · rintro ⟨row, derived', hrow', hderived', hmem⟩
    obtain rfl := some.inj (hrow.symm.trans hrow')
    obtain rfl := ok.inj (hderived.symm.trans hderived')
    exact hmem

/-! ## What a transaction leaves -/

/-- **What a write does to the facts**: those named are retracted or asserted, and of the others only
rows of the endpoint relations change. -/
structure Writes (c : FactCatalog) (rows next : Finset Fact) (retract assert : List NamedFact) :
    Prop where
  retracted : ∀ f ∈ retract, f ∉ assert → c.Ordinary f → ¬ c.Stored next f
  asserted : ∀ f ∈ assert, c.Stored next f
  kept : ∀ f, f ∉ retract → f ∉ assert → c.Ordinary f → (c.Stored next f ↔ c.Stored rows f)

theorem stored_iff (hrow : c.rowOf f = some row) : c.Stored rows f ↔ row ∈ rows := by
  constructor
  · rintro ⟨row', hrow', hmem⟩
    exact some.inj (hrow.symm.trans hrow') ▸ hmem
  · exact fun hmem => ⟨row, hrow, hmem⟩

variable {failure : Option KernelError} {out : Finset Fact × ℕ}

theorem commit_eq_ok (h : commit failure rows next = .ok out) : out.1 = next := by
  unfold commit at h
  split at h
  · cases h
  exact (congrArg Prod.fst (ok.inj h)).symm

/-- A write that retracts and asserts what it is given, and touches endpoint rows besides. -/
theorem Writes.of_rows {retract assert : List NamedFact} {out asserts : List Fact}
    (hretract : c.volatileTupleRelationsRequired retract = .ok out)
    (hassert : c.volatileTupleRelationsRequired assert = .ok asserts)
    (hasserts : ∀ row ∈ asserts, row ∈ next)
    (hkept : ∀ row : Fact, row.1 ∉ endpointRelations → row ∉ asserts →
      (row ∈ next ↔ row ∈ rows ∧ row ∉ out)) : c.Writes rows next retract assert := by
  have hnotMem {tuples : List NamedFact} {facts : List Fact}
      (h : c.volatileTupleRelationsRequired tuples = .ok facts) {f : NamedFact} {row : Fact}
      (hf : f ∉ tuples) (hrow : c.rowOf f = some row) : row ∉ facts := fun hmem => by
    obtain ⟨g, hg, hg'⟩ := (mem_required h row).mp hmem
    exact hf (rowOf_injective hg' hrow ▸ hg)
  refine ⟨fun f hf hnot hordinary => ?_, fun f hf => ?_, fun f hout hin hordinary => ?_⟩
  · obtain ⟨row, hrow⟩ := exists_rowOf_of_required hretract hf
    rw [stored_iff hrow, hkept row (hordinary row hrow) (hnotMem hassert hnot hrow)]
    exact fun h => h.2 ((mem_required hretract row).mpr ⟨f, hf, hrow⟩)
  · obtain ⟨row, hrow⟩ := exists_rowOf_of_required hassert hf
    exact (stored_iff hrow).mpr (hasserts row ((mem_required hassert row).mpr ⟨f, hf, hrow⟩))
  · cases hrow : c.rowOf f with
    | none =>
      refine iff_of_false ?_ ?_
      all_goals
        rintro ⟨row, hrow', -⟩
        cases hrow.symm.trans hrow'
    | some row =>
      rw [stored_iff hrow, stored_iff hrow,
        hkept row (hordinary row hrow) (hnotMem hassert hin hrow)]
      exact and_iff_left (hnotMem hretract hout hrow)

theorem replaceVolatileTuples_writes {retract assert : List NamedFact}
     (h : c.replaceVolatileTuples failure rows retract assert = .ok out) :
    c.Writes rows out.1 retract assert := by
  unfold replaceVolatileTuples at h
  rcases hretract : c.volatileTupleRelationsRequired retract with _ | outs
  · cases hretract ▸ h
  rw [hretract] at h
  rcases hassert : c.volatileTupleRelationsRequired assert with _ | asserts
  · cases hassert ▸ h
  simp only [hassert] at h
  refine Writes.of_rows hretract hassert (fun row hrow => ?_) fun row _ hnot => ?_
  all_goals
    split_ifs at h with hempty
  · rw [List.isEmpty_iff.mp hempty.2] at hrow
    cases hrow
  · rw [commit_eq_ok h]
    exact Finset.mem_union_right _ (mem_toFinset.mpr hrow)
  · rw [← ok.inj h, List.isEmpty_iff.mp hempty.1]
    simp
  · rw [commit_eq_ok h]
    simp [hnot]

variable {endpoint : Identity}

theorem mem_endpointRows {principal actor : Option Identity} {protocol : Symbol}
    (h : row ∈ endpointRows endpoint principal actor protocol) : row.1 ∈ endpointRelations := by
  unfold endpointRows at h
  simp only [mem_append, mem_map, mem_cons, not_mem_nil, or_false] at h
  rcases h with ((rfl | ⟨p, -, rfl⟩) | ⟨a, -, rfl⟩) | rfl | rfl
  all_goals
    simp [endpointRelations]

theorem openEndpoint_writes {principal actor : Option Identity} {protocol : Symbol}
    (h : c.openEndpoint failure rows endpoint principal actor protocol tuples = .ok out) :
    c.Writes rows out.1 [] tuples := by
  unfold openEndpoint at h
  rcases htuples : c.volatileTupleRelationsRequired tuples with _ | facts
  · cases htuples ▸ h
  rw [htuples] at h
  rcases hopen : c.contains rows endpointOpenRelation [.identity endpoint] with _ | present
  · simp only [hopen] at h; exact nomatch h
  cases present with
  | true => simp only [hopen] at h; exact nomatch h
  | false =>
    simp only [hopen] at h
    rw [commit_eq_ok h]
    refine Writes.of_rows rfl htuples (fun row hrow => ?_) fun row hordinary hnot => ?_
    · exact Finset.mem_union_right _ (mem_toFinset.mpr hrow)
    · have hrows : row ∉ endpointRows endpoint principal actor protocol :=
        fun hmem => hordinary (mem_endpointRows hmem)
      simp [hnot, hrows]

theorem isEndpointRow_of_not_ordinary (h : row.1 ∉ endpointRelations) :
    isEndpointRow endpoint row = false := by
  unfold isEndpointRow
  have hne : ¬ (row.1 = endpointRelation ∨ row.1 = endpointOpenRelation) := by
    rintro (heq | heq)
    all_goals
      exact h (by simp [heq, endpointRelations])
  rw [if_neg hne, decide_eq_false h, Bool.false_and]

theorem closeEndpoint_writes
    (h : c.closeEndpoint failure rows endpoint tuples = .ok out) : c.Writes rows out.1 tuples [] := by
  unfold closeEndpoint at h
  rcases htuples : c.volatileTupleRelationsRequired tuples with _ | facts
  · cases htuples ▸ h
  rw [htuples] at h
  cases hopen : c.contains (rows \ facts.toFinset) endpointOpenRelation [.identity endpoint] with
  | error e => simp only [hopen] at h; exact nomatch h
  | ok present =>
    refine Writes.of_rows htuples rfl (nofun)
      fun row hordinary _ => ?_
    cases present with
    | true =>
      simp only [hopen] at h
      rw [commit_eq_ok h]
      simp [isEndpointRow_of_not_ordinary hordinary]
    | false =>
      simp only [hopen] at h
      rw [commit_eq_ok h]
      simp

end FactCatalog

/-! ## Taking and letting go -/

namespace FactOwners

variable {owners : FactOwners} {f : NamedFact}

/-- An owner more. -/
def more (asserted : Option Bool) : Option VolatileFactOwnership → Option VolatileFactOwnership
  | some o => some { o with owners := o.owners + 1 }
  | none => asserted.map fun a => ⟨1, a⟩

/-- An owner less. -/
def less : Option VolatileFactOwnership → Option VolatileFactOwnership
  | some o => if o.owners = 1 then none else some { o with owners := o.owners - 1 }
  | none => none

/-- How many owners there are. -/
def number (o : Option VolatileFactOwnership) : ℕ := o.elim 0 VolatileFactOwnership.owners

theorem take_spec (owners : FactOwners) (e : NamedFact × Option Bool)
    (h : (owners.get? e.1).isSome ∨ e.2.isSome) :
    ∃ owners', owners.take e = some owners' ∧
      owners'.get? e.1 = more e.2 (owners.get? e.1) ∧
        ∀ g, g ≠ e.1 → owners'.get? g = owners.get? g := by
  unfold take
  cases hget : owners.get? e.1 with
  | some o =>
    exact ⟨_, rfl, get?_insert_self, fun g hne => get?_insert_of_ne hne⟩
  | none =>
    rw [hget] at h
    obtain ⟨asserted, hasserted⟩ := Option.isSome_iff_exists.mp (h.resolve_left Bool.false_ne_true)
    rw [hasserted]
    exact ⟨_, rfl, get?_insert_self, fun g hne => get?_insert_of_ne hne⟩

theorem letGo_spec {o : VolatileFactOwnership} (hget : owners.get? f = some o) (ho : o.owners ≠ 0) :
    ∃ owners', owners.letGo f o = some owners' ∧ owners'.get? f = less (owners.get? f) ∧
      ∀ g, g ≠ f → owners'.get? g = owners.get? g := by
  unfold letGo
  rw [if_neg ho, hget, less]
  by_cases hlast : o.owners = 1
  · rw [if_pos hlast, if_pos hlast]
    refine ⟨_, rfl, ?_, fun g hne => ?_⟩
    · rw [get?_erase, if_pos rfl]
    · rw [get?_erase, if_neg hne]
  · rw [if_neg hlast, if_neg hlast]
    exact ⟨_, rfl, get?_insert_self, fun g hne => get?_insert_of_ne hne⟩

theorem release_spec (owners : FactOwners) (f : NamedFact)
    (h : ∃ o, owners.get? f = some o ∧ o.owners ≠ 0) :
    ∃ owners', owners.release f = some owners' ∧ owners'.get? f = less (owners.get? f) ∧
      ∀ g, g ≠ f → owners'.get? g = owners.get? g := by
  obtain ⟨o, hget, ho⟩ := h
  obtain ⟨owners', hact, hspec⟩ := letGo_spec hget ho
  refine ⟨owners', ?_, hspec⟩
  rwa [release, hget]

theorem releaseOwned_spec (owners : FactOwners) (f : NamedFact)
    (h : ∃ o, owners.get? f = some o ∧ o.owners ≠ 0) :
    ∃ owners', owners.releaseOwned f = some owners' ∧ owners'.get? f = less (owners.get? f) ∧
      ∀ g, g ≠ f → owners'.get? g = owners.get? g := by
  obtain ⟨o, hget, ho⟩ := h
  obtain ⟨owners', hact, hspec⟩ := letGo_spec hget ho
  refine ⟨owners', ?_, hspec⟩
  rwa [releaseOwned, hget]

/-- **Every fact of a list of distinct facts gets an owner more.** -/
theorem takeAll {taken : List (NamedFact × Option Bool)} (hnodup : (taken.map Prod.fst).Nodup)
    (h : ∀ e ∈ taken, (owners.get? e.1).isSome ∨ e.2.isSome) :
    ∃ owners', taken.foldlM take owners = some owners' ∧
      (∀ e ∈ taken, owners'.get? e.1 = more e.2 (owners.get? e.1)) ∧
        ∀ g, g ∉ taken.map Prod.fst → owners'.get? g = owners.get? g :=
  foldlM_distinct Prod.fst (fun e => more e.2) (fun e o => o.isSome ∨ e.2.isSome) take_spec
    hnodup h

/-- **Every fact of a list of distinct facts loses an owner.** -/
theorem letGoAll {act : FactOwners → NamedFact → Option FactOwners}
    (hact : ∀ owners f, (∃ o, owners.get? f = some o ∧ o.owners ≠ 0) →
      ∃ owners', act owners f = some owners' ∧ owners'.get? f = less (owners.get? f) ∧
        ∀ g, g ≠ f → owners'.get? g = owners.get? g)
    {lost : List NamedFact} (hnodup : lost.Nodup)
    (h : ∀ f ∈ lost, ∃ o, owners.get? f = some o ∧ o.owners ≠ 0) :
    ∃ owners', lost.foldlM act owners = some owners' ∧
      (∀ f ∈ lost, owners'.get? f = less (owners.get? f)) ∧
        ∀ g, g ∉ lost → owners'.get? g = owners.get? g := by
  obtain ⟨owners', hfold, hlost, hsame⟩ := foldlM_distinct id (fun _ => less)
    (fun _ o => ∃ v, o = some v ∧ v.owners ≠ 0) hact (by simpa using hnodup) h
  exact ⟨owners', hfold, hlost, fun g hg => hsame g (by simpa using hg)⟩

end FactOwners

/-! ## The facts of an endpoint -/

namespace EndpointResources

theorem mem_facts {r : EndpointResources} {f : NamedFact} :
    f ∈ r.facts ↔ ∃ scope facts, r.scopes.get? scope = some facts ∧ f ∈ facts := by
  simp only [facts, mem_ofList, mem_flatMap, get?_eq_some, Prod.exists,
    mem_list]

theorem mem_otherFacts {r : EndpointResources} {scope : Symbol} {f : NamedFact} :
    f ∈ r.otherFacts scope ↔
      ∃ other facts, other ≠ scope ∧ r.scopes.get? other = some facts ∧ f ∈ facts := by
  simp only [otherFacts, mem_ofList, mem_flatMap, mem_filter,
    get?_eq_some, Prod.exists, mem_list, decide_eq_true_eq]
  refine exists_congr fun other => exists_congr fun facts => ?_
  tauto

/-- The facts are those of one scope and of the others. -/
theorem mem_facts_iff (r : EndpointResources) (scope : Symbol) (f : NamedFact) :
    f ∈ r.facts ↔ f ∈ (r.scopes.get? scope).getD SortedSet.empty ∨ f ∈ r.otherFacts scope := by
  rw [mem_facts, mem_otherFacts]
  constructor
  · rintro ⟨other, facts, hget, hf⟩
    by_cases hother : other = scope
    · rw [← hother, hget]
      exact .inl hf
    · exact .inr ⟨other, facts, hother, hget, hf⟩
  rintro (hf | ⟨other, facts, -, hget, hf⟩)
  · rcases hget : r.scopes.get? scope with _ | facts
    · rw [hget] at hf
      exact absurd hf (notMem_empty f)
    exact ⟨scope, facts, hget, by rwa [hget] at hf⟩
  · exact ⟨other, facts, hget, hf⟩

theorem otherFacts_insert (r : EndpointResources) (scope : Symbol) (next : SortedSet NamedFact) :
    otherFacts ⟨r.scopes.insert scope next⟩ scope = r.otherFacts scope := by
  refine ext_mem fun f => ?_
  rw [mem_otherFacts, mem_otherFacts]
  refine exists_congr fun other => exists_congr fun facts => and_congr_right fun hne => ?_
  rw [get?_insert_of_ne hne]

theorem mem_facts_insert (r : EndpointResources) (scope : Symbol) (next : SortedSet NamedFact)
    (f : NamedFact) : f ∈ facts ⟨r.scopes.insert scope next⟩ ↔ f ∈ next ∨ f ∈ r.otherFacts scope := by
  rw [mem_facts_iff _ scope, otherFacts_insert, get?_insert_self, Option.getD_some]

theorem mem_facts_single (scope : Symbol) (tuples : SortedSet NamedFact) (f : NamedFact) :
    f ∈ facts ⟨SortedMap.empty.insert scope tuples⟩ ↔ f ∈ tuples := by
  rw [mem_facts_insert ⟨SortedMap.empty⟩]
  refine or_iff_left fun hf => ?_
  obtain ⟨other, facts, -, hget, -⟩ := mem_otherFacts.mp hf
  cases hget

end EndpointResources

/-! ## What an operation does -/

namespace FactWorld

variable {c : FactCatalog} {w w' : FactWorld} {f : NamedFact}

/-- Who owns a fact. -/
def ownership (w : FactWorld) (f : NamedFact) : Option VolatileFactOwnership :=
  w.state.volatileFactOwners.get? f

/-- **The owner count of a fact.** -/
def owners (w : FactWorld) (f : NamedFact) : ℕ := FactOwners.number (w.ownership f)

/-- **How many open endpoints have the fact in a scope.** -/
def holders (w : FactWorld) (f : NamedFact) : ℕ := w.state.endpoints.count fun r => f ∈ r.facts

/-- What a fact would be taken with. -/
def provenance (c : FactCatalog) (w : FactWorld) (f : NamedFact) :
    Except DriverError (NamedFact × Option Bool) :=
  w.state.volatileFactOwners.provenance c w.rows f

/-- **One endpoint's facts become `new` where they were `old`**: the facts it loses have an owner less,
those it gains an owner more, and the write is what these ask for. -/
structure Moves (c : FactCatalog) (w w' : FactWorld) (old new : SortedSet NamedFact) : Prop where
  holders : ∀ f, w'.holders f + (if f ∈ old then 1 else 0) = w.holders f + if f ∈ new then 1 else 0
  lost : ∀ f ∈ old, f ∉ new → w'.ownership f = FactOwners.less (w.ownership f)
  gained : ∀ f ∈ new, f ∉ old → ∃ a, w.provenance c f = .ok (f, a) ∧
    w'.ownership f = FactOwners.more a (w.ownership f)
  same : ∀ f, (f ∈ old ↔ f ∈ new) → w'.ownership f = w.ownership f
  writes : ∃ retract assert, c.Writes w.rows w'.rows retract assert ∧
    (∀ f, f ∈ retract ↔ (f ∈ old ∧ f ∉ new) ∧ w.ownership f = some ⟨1, true⟩) ∧
      ∀ f, f ∈ assert ↔ (f ∈ new ∧ f ∉ old) ∧ w.provenance c f = .ok (f, some true)

theorem provenance_cases {e : NamedFact × Option Bool} (h : w.provenance c f = .ok e) :
    e.1 = f ∧ ((∃ o, w.ownership f = some o) ∧ e.2 = none ∨
      w.ownership f = none ∧ (∃ row, c.rowOf f = some row) ∧
        ∃ present, e.2 = some !present ∧ (present = true ↔ c.Present w.rows f)) := by
  unfold provenance FactOwners.provenance at h
  split at h
  · next hsome =>
    rw [← ok.inj h]
    exact ⟨rfl, .inl ⟨Option.isSome_iff_exists.mp hsome, rfl⟩⟩
  rename_i hnone
  rcases hcontains : c.containsNamedTuple w.rows f with _ | present
  · cases hcontains ▸ h
  rw [hcontains] at h
  rw [← ok.inj h]
  obtain ⟨hrow, hpresent⟩ := FactCatalog.containsNamedTuple_spec hcontains
  exact ⟨rfl, .inr ⟨by simpa [ownership] using hnone, hrow, present, rfl, hpresent⟩⟩

variable {taken : List (NamedFact × Option Bool)}

/-- What is taken: each fact that is gained, with its provenance. -/
theorem mem_taken {gained : List NamedFact} (h : gained.mapM (w.provenance c) = .ok taken) :
    taken.map Prod.fst = gained ∧ ∀ e, e ∈ taken ↔ e.1 ∈ gained ∧ w.provenance c e.1 = .ok e := by
  have hall := Collect.mapM_eq_ok.mp h
  refine ⟨?_, fun e => ⟨fun he => ?_, fun ⟨he, hok⟩ => ?_⟩⟩
  · clear h
    induction hall with
    | nil => rfl
    | cons hhere _ ih => rw [map_cons, ih, (provenance_cases hhere).1]
  · obtain ⟨f, hf, hok⟩ := Collect.exists_of_mem_right hall e he
    have hfst := (provenance_cases hok).1
    rw [hfst]
    exact ⟨hf, hok⟩
  · obtain ⟨e', he', hok'⟩ := Collect.exists_of_mem_left hall e.1 he
    exact ok.inj (hok'.symm.trans hok) ▸ he'

theorem mem_asserted {gained : List NamedFact}
    (h : gained.mapM (w.provenance c) = .ok taken) (f : NamedFact) :
    f ∈ FactOwners.asserted taken ↔ f ∈ gained ∧ w.provenance c f = .ok (f, some true) := by
  simp only [FactOwners.asserted, mem_map, mem_filter, (mem_taken h).2, decide_eq_true_eq]
  constructor
  · rintro ⟨⟨f', a⟩, ⟨⟨hmem, hok⟩, rfl⟩, rfl⟩
    exact ⟨hmem, hok⟩
  · rintro ⟨hmem, hok⟩
    exact ⟨(f, some true), ⟨⟨hmem, hok⟩, rfl⟩, rfl⟩

theorem mem_retracted {lost : List NamedFact} (f : NamedFact) :
    f ∈ w.state.volatileFactOwners.retracted lost ↔ f ∈ lost ∧ w.ownership f = some ⟨1, true⟩ := by
  rw [FactOwners.retracted, mem_filter, ← ownership]
  refine and_congr_right fun _ => ?_
  cases w.ownership f with
  | none => simp
  | some o =>
    obtain ⟨n, asserted⟩ := o
    simp

/-- **An operation goes through once the write has**, and is a move. -/
theorem Moves.of_folds (old new : SortedSet NamedFact) (lost : List NamedFact)
    {gained : List NamedFact} {act : FactOwners → NamedFact → Option FactOwners}
    (hact : ∀ owners f, (∃ o, owners.get? f = some o ∧ o.owners ≠ 0) →
      ∃ owners', act owners f = some owners' ∧ owners'.get? f = FactOwners.less (owners.get? f) ∧
        ∀ g, g ≠ f → owners'.get? g = owners.get? g)
    (howned : ∀ f ∈ old, ∃ o, w.ownership f = some o ∧ o.owners ≠ 0)
    (hlost : ∀ f, f ∈ lost ↔ f ∈ old ∧ f ∉ new) (hlostNodup : lost.Nodup)
    (hgained : ∀ f, f ∈ gained ↔ f ∈ new ∧ f ∉ old) (hgainedNodup : gained.Nodup)
    (htaken : gained.mapM (w.provenance c) = .ok taken) :
    ∃ left owners, lost.foldlM act w.state.volatileFactOwners = some left ∧
      taken.foldlM FactOwners.take left = some owners ∧
        ∀ w', w'.state.volatileFactOwners = owners →
          (∀ f, w'.holders f + (if f ∈ old then 1 else 0) =
            w.holders f + if f ∈ new then 1 else 0) →
          c.Writes w.rows w'.rows (w.state.volatileFactOwners.retracted lost)
            (FactOwners.asserted taken) → Moves c w w' old new := by
  obtain ⟨hfst, hmem⟩ := mem_taken htaken
  obtain ⟨left, hleft, hless, hkept⟩ := FactOwners.letGoAll hact hlostNodup
    fun f hf => howned f ((hlost f).mp hf).1
  have hapart : ∀ f ∈ gained, f ∉ lost := fun f hf hl => ((hlost f).mp hl).2 ((hgained f).mp hf).1
  have hready : ∀ e ∈ taken, (left.get? e.1).isSome ∨ e.2.isSome := fun e he => by
    obtain ⟨hg, hok⟩ := (hmem e).mp he
    rw [hkept e.1 (hapart e.1 hg)]
    rcases (provenance_cases hok).2 with ⟨⟨o, ho⟩, -⟩ | ⟨-, -, present, hpresent, -⟩
    · exact .inl (Option.isSome_iff_exists.mpr ⟨o, ho⟩)
    · exact .inr (Option.isSome_iff_exists.mpr ⟨_, hpresent⟩)
  obtain ⟨owners, htake, hmore, hsame⟩ := FactOwners.takeAll (hfst ▸ hgainedNodup) hready
  refine ⟨left, owners, hleft, htake, fun w' hw' hholders hwrites => ?_⟩
  have hownership : ∀ f, w'.ownership f = owners.get? f := fun f => by rw [ownership, hw']
  refine ⟨hholders, fun f hold hnew => ?_, fun f hnew hold => ?_, fun f hiff => ?_,
    ⟨_, _, hwrites, fun f => ?_, fun f => ?_⟩⟩
  · have hnot : f ∉ gained := fun h => hnew ((hgained f).mp h).1
    rw [hownership, hsame f (hfst.symm ▸ hnot), hless f ((hlost f).mpr ⟨hold, hnew⟩)]
    rfl
  · have hg := (hgained f).mpr ⟨hnew, hold⟩
    obtain ⟨e, he, rfl⟩ : ∃ e ∈ taken, e.1 = f := mem_map.mp (hfst.symm ▸ hg)
    refine ⟨e.2, ((hmem e).mp he).2, ?_⟩
    rw [hownership, hmore e he, hkept e.1 (hapart e.1 hg)]
    rfl
  · have hg : f ∉ gained := fun h => ((hgained f).mp h).2 (hiff.mpr ((hgained f).mp h).1)
    have hl : f ∉ lost := fun h => ((hlost f).mp h).2 (hiff.mp ((hlost f).mp h).1)
    rw [hownership, hsame f (hfst.symm ▸ hg), hkept f hl]
    rfl
  · rw [mem_retracted, hlost]
  · rw [mem_asserted htaken, hgained]

/-! ## The invariants -/

/-- **Every fact has as many owners as endpoints hold it**, and none is kept without. -/
structure Counted (w : FactWorld) : Prop where
  owners_eq : ∀ f, w.owners f = w.holders f
  positive : ∀ f o, w.ownership f = some o → o.owners ≠ 0

/-- What is known of a fact by who owns it: a fact with owners is stored, and the driver asserted it
if it was not there at the start; one without is stored if it was at the start. -/
def HeldAs (c : FactCatalog) (start rows : Finset Fact) (f : NamedFact) :
    Option VolatileFactOwnership → Prop
  | some o => c.Stored rows f ∧ (o.assertedByDriver = true ↔ ¬ c.Stored start f)
  | none => c.Stored rows f ↔ c.Stored start f

/-- **Every ordinary fact is stored as its owners say.** -/
def Held (c : FactCatalog) (start : Finset Fact) (w : FactWorld) : Prop :=
  ∀ f, c.Ordinary f → HeldAs c start w.rows f (w.ownership f)

theorem number_less {o : VolatileFactOwnership} (h : o.owners ≠ 0) :
    FactOwners.number (FactOwners.less (some o)) + 1 = o.owners := by
  rw [FactOwners.less]
  split
  · next hone => exact hone.symm
  · exact Nat.sub_add_cancel (Nat.one_le_iff_ne_zero.mpr h)

theorem number_more {a : Option Bool} {o : Option VolatileFactOwnership} (h : o.isSome ∨ a.isSome) :
    FactOwners.number (FactOwners.more a o) = FactOwners.number o + 1 := by
  cases o with
  | some o => rfl
  | none =>
    obtain ⟨b, hb⟩ := Option.isSome_iff_exists.mp (h.resolve_left Bool.false_ne_true)
    rw [hb]
    rfl

/-- The facts of an open endpoint have owners. -/
theorem Counted.owned (h : w.Counted) {endpoint : Identity} {r : EndpointResources}
    (hr : w.state.endpoints.get? endpoint = some r) (hf : f ∈ r.facts) :
    ∃ o, w.ownership f = some o ∧ o.owners ≠ 0 := by
  have hpos : 0 < w.holders f :=
    countP_pos_iff.mpr ⟨_, get?_eq_some.mp hr, decide_eq_true hf⟩
  rw [← h.owners_eq f, owners] at hpos
  rcases ho : w.ownership f with _ | o
  · exact absurd (ho ▸ hpos) (lt_irrefl 0)
  exact ⟨o, rfl, h.positive f o ho⟩

theorem Counted.moves {old new : SortedSet NamedFact} (h : w.Counted) (hmoves : Moves c w w' old new)
    (howned : ∀ f ∈ old, ∃ o, w.ownership f = some o ∧ o.owners ≠ 0) : w'.Counted := by
  have hnone : FactOwners.number none = 0 := rfl
  refine ⟨fun f => ?_, fun f o ho => ?_⟩
  · have hcount := hmoves.holders f
    have heq := h.owners_eq f
    unfold owners at heq ⊢
    by_cases hold : f ∈ old
    · by_cases hnew : f ∈ new
      · rw [if_pos hold, if_pos hnew] at hcount
        rw [hmoves.same f (iff_of_true hold hnew)]
        omega
      rw [if_pos hold, if_neg hnew] at hcount
      obtain ⟨o, ho, hpos⟩ := howned f hold
      have hless := number_less hpos
      rw [hmoves.lost f hold hnew, ho]
      rw [ho] at heq
      have hnumber : FactOwners.number (some o) = o.owners := rfl
      omega
    · by_cases hnew : f ∈ new
      · rw [if_neg hold, if_pos hnew] at hcount
        obtain ⟨a, hok, hown⟩ := hmoves.gained f hnew hold
        have hready : (w.ownership f).isSome ∨ a.isSome := by
          rcases (provenance_cases hok).2 with ⟨⟨o, ho⟩, -⟩ | ⟨-, -, present, hpresent, -⟩
          · exact .inl (Option.isSome_iff_exists.mpr ⟨o, ho⟩)
          · exact .inr (Option.isSome_iff_exists.mpr ⟨_, hpresent⟩)
        have hmore := number_more hready
        rw [hown]
        omega
      · rw [if_neg hold, if_neg hnew] at hcount
        rw [hmoves.same f (iff_of_false hold hnew)]
        omega
  · by_cases hiff : f ∈ old ↔ f ∈ new
    · exact h.positive f o (hmoves.same f hiff ▸ ho)
    by_cases hold : f ∈ old
    · have hnew : f ∉ new := fun hnew => hiff (iff_of_true hold hnew)
      rw [hmoves.lost f hold hnew] at ho
      obtain ⟨o', ho', hpos⟩ := howned f hold
      rw [ho', FactOwners.less] at ho
      split at ho
      · cases ho
      rename_i hne
      rw [← some.inj ho]
      exact Nat.sub_ne_zero_of_lt (lt_of_le_of_ne (Nat.one_le_iff_ne_zero.mpr hpos) (Ne.symm hne))
    · have hnew : f ∈ new := by
        by_contra hnew
        exact hiff (iff_of_false hold hnew)
      obtain ⟨a, -, hown⟩ := hmoves.gained f hnew hold
      rw [hown] at ho
      cases how : w.ownership f with
      | some o' =>
        rw [how] at ho
        rw [← some.inj ho]
        exact Nat.succ_ne_zero _
      | none =>
        rw [how] at ho
        obtain ⟨b, -, rfl⟩ := Option.map_eq_some_iff.mp ho
        exact Nat.one_ne_zero

/-- **A first owner finds the fact only where it is stored.** -/
def TakenFromStore (c : FactCatalog) (w : FactWorld) (f : NamedFact) : Prop :=
  w.ownership f = none → c.DerivedFact w.rows f → c.Stored w.rows f

variable {start rows next : Finset Fact}

theorem HeldAs.congr {o : Option VolatileFactOwnership} (h : HeldAs c start rows f o)
    (hkept : c.Stored next f ↔ c.Stored rows f) : HeldAs c start next f o := by
  cases o with
  | none => exact hkept.trans h
  | some o => exact ⟨hkept.mpr h.1, h.2⟩

/-- An owner lets go: the row goes with the last owner if the driver asserted it. -/
theorem HeldAs.less {o : VolatileFactOwnership} (h : HeldAs c start rows f (some o))
    (hgone : o = ⟨1, true⟩ → ¬ c.Stored next f)
    (hkept : o ≠ ⟨1, true⟩ → (c.Stored next f ↔ c.Stored rows f)) :
    HeldAs c start next f (FactOwners.less (some o)) := by
  obtain ⟨hstored, hasserted⟩ := h
  obtain ⟨n, asserted⟩ := o
  rw [FactOwners.less]
  split
  · next hone =>
    obtain rfl : n = 1 := hone
    cases asserted with
    | true => exact iff_of_false (hgone rfl) (hasserted.mp rfl)
    | false =>
      refine iff_of_true ((hkept (by simp)).mpr hstored) ?_
      by_contra hs
      exact Bool.false_ne_true (hasserted.mpr hs)
  · next hne =>
    have hother : (⟨n, asserted⟩ : VolatileFactOwnership) ≠ ⟨1, true⟩ := fun heq =>
      hne (congrArg VolatileFactOwnership.owners heq)
    exact ⟨(hkept hother).mpr hstored, hasserted⟩

/-- A first owner takes a fact: it is asserted unless it is stored. -/
theorem HeldAs.first {present : Bool} (h : HeldAs c start rows f none)
    (hpresent : present = true ↔ c.Stored rows f)
    (hasserted : present = false → c.Stored next f)
    (hkept : present = true → (c.Stored next f ↔ c.Stored rows f)) :
    HeldAs c start next f (FactOwners.more (some !present) none) := by
  cases present with
  | true =>
    have hstored := hpresent.mp rfl
    exact ⟨(hkept rfl).mpr hstored,
      iff_of_false Bool.false_ne_true (not_not_intro (h.mp hstored))⟩
  | false =>
    exact ⟨hasserted rfl, iff_of_true rfl fun hs => Bool.false_ne_true (hpresent.mpr (h.mpr hs))⟩

theorem Held.moves {old new : SortedSet NamedFact} (h : w.Held c start)
    (hmoves : Moves c w w' old new)
    (howned : ∀ f ∈ old, ∃ o, w.ownership f = some o ∧ o.owners ≠ 0)
    (htaken : ∀ f ∈ new, f ∉ old → TakenFromStore c w f) : w'.Held c start := by
  obtain ⟨retract, assert, hwrites, hretract, hassert⟩ := hmoves.writes
  intro f hordinary
  have hnotRetract (hnot : ¬ ((f ∈ old ∧ f ∉ new) ∧ w.ownership f = some ⟨1, true⟩)) : f ∉ retract :=
    fun hmem => hnot ((hretract f).mp hmem)
  have hnotAssert (hnot : ¬ ((f ∈ new ∧ f ∉ old) ∧ w.provenance c f = .ok (f, some true))) :
      f ∉ assert := fun hmem => hnot ((hassert f).mp hmem)
  by_cases hiff : f ∈ old ↔ f ∈ new
  · rw [hmoves.same f hiff]
    exact (h f hordinary).congr (hwrites.kept f (hnotRetract fun hr => hr.1.2 (hiff.mp hr.1.1))
      (hnotAssert fun ha => ha.1.2 (hiff.mpr ha.1.1)) hordinary)
  by_cases hold : f ∈ old
  · have hnew : f ∉ new := fun hnew => hiff (iff_of_true hold hnew)
    have hassert' := hnotAssert fun ha => hnew ha.1.1
    obtain ⟨o, ho, -⟩ := howned f hold
    have hheld := h f hordinary
    rw [ho] at hheld
    rw [hmoves.lost f hold hnew, ho]
    refine hheld.less (fun heq => ?_) fun hne => ?_
    · exact hwrites.retracted f ((hretract f).mpr ⟨⟨hold, hnew⟩, heq ▸ ho⟩) hassert' hordinary
    · refine hwrites.kept f (hnotRetract fun hr => hne ?_) hassert' hordinary
      exact some.inj (ho.symm.trans hr.2)
  · have hnew : f ∈ new := by
      by_contra hnew
      exact hiff (iff_of_false hold hnew)
    have hretract' := hnotRetract fun hr => hold hr.1.1
    obtain ⟨a, hok, hown⟩ := hmoves.gained f hnew hold
    have hheld := h f hordinary
    rw [hown]
    rcases (provenance_cases hok).2 with ⟨⟨o, ho⟩, rfl⟩ | ⟨hnone, -, present, rfl, hpresent⟩
    · have hassert' := hnotAssert fun ha =>
        nomatch congrArg Prod.snd (ok.inj (hok.symm.trans ha.2))
      rw [ho] at hheld ⊢
      exact hheld.congr (hwrites.kept f hretract' hassert' hordinary)
    rw [hnone] at hheld ⊢
    refine hheld.first ?_ (fun hp => ?_) fun hp => ?_
    · rw [hpresent]
      exact ⟨fun hp => hp.elim id (htaken f hnew hold hnone), .inl⟩
    · subst hp
      exact hwrites.asserted f ((hassert f).mpr ⟨⟨hnew, hold⟩, hok⟩)
    · subst hp
      exact hwrites.kept f hretract' (hnotAssert fun ha =>
        nomatch some.inj (congrArg Prod.snd (ok.inj (hok.symm.trans ha.2)))) hordinary

end FactWorld

end Mica
