import Mica.Driver.FactOwnership

/-!
# Driver/FactRuns — the owners of facts, over runs

Every operation either refuses, and then scopes, owners and facts are as they were, or moves one
endpoint's facts.  So counts and facts are right in every state of a run (`volatile_facts_counted`), as
long as no first owner is given a fact that only a rule shows: that one is taken to be there
already, is not asserted, and goes when what the rule read goes (`derived_fact_is_lost`).
-/

open SortedList SortedSet
open Option (some.inj)

namespace Mica

namespace FactWorld

variable {c : FactCatalog} {w w' : FactWorld} {f : NamedFact} {start : Finset Fact}

/-! ## The operations -/

/-- **Scopes, owners and facts are as they were.** -/
def Unmoved (w w' : FactWorld) : Prop :=
  w'.state.endpoints = w.state.endpoints ∧
    w'.state.volatileFactOwners = w.state.volatileFactOwners ∧ w'.rows = w.rows

theorem Unmoved.refl (w : FactWorld) : w.Unmoved w := ⟨rfl, rfl, rfl⟩

/-- **What an operation comes to**: it refuses, or one endpoint's facts change, to some of `facts` at
most. -/
inductive Outcome (c : FactCatalog) (w : FactWorld) (facts : List NamedFact) : FactAnswer → Prop
  | refused (e : DriverError) : Outcome c w facts (.error e, w)
  | unmoved {n : ℕ} {w' : FactWorld} (h : w.Unmoved w') : Outcome c w facts (.ok n, w')
  | moved {n : ℕ} {w' : FactWorld} {old new : SortedSet NamedFact} (hmoves : Moves c w w' old new)
      (howned : ∀ f ∈ old, ∃ o, w.ownership f = some o ∧ o.owners ≠ 0)
      (hnew : ∀ f ∈ new, f ∉ old → f ∈ facts) : Outcome c w facts (.ok n, w')

theorem contribution_facts (f : NamedFact) (r : EndpointResources) :
    SortedMap.contribution (fun r : EndpointResources => decide (f ∈ r.facts)) (some r) =
      if f ∈ r.facts then 1 else 0 := by
  simp [SortedMap.contribution]

theorem sortedSet_nodup (s : SortedSet NamedFact) : s.list.Nodup := s.sorted.imp ne_of_lt

theorem openEndpoint_outcome (endpointScope : Symbol) (endpoint : Identity)
    (principal actor : Option Identity) (protocol : Symbol) (tuples : List NamedFact)
    (failure : Option KernelError) :
    ∃ answer, w.openEndpoint c endpointScope endpoint principal actor protocol tuples failure =
      some answer ∧ Outcome c w tuples answer := by
  unfold openEndpoint
  cases hrefusal : openRefusal w.state endpoint with
  | some e => exact ⟨_, rfl, .refused e⟩
  | none =>
    have habsent : w.state.endpoints.get? endpoint = none := by
      unfold openRefusal at hrefusal
      split_ifs at hrefusal with _ hsome
      simpa using hsome
    dsimp only
    rcases htaken : (SortedSet.ofList tuples).list.mapM
        (w.state.volatileFactOwners.provenance c w.rows) with e | taken
    · exact ⟨_, rfl, .refused e⟩
    dsimp only
    rcases hwrite : c.openEndpoint failure w.rows endpoint principal actor protocol
        (FactOwners.asserted taken) with _ | out
    · exact ⟨_, rfl, .refused _⟩
    obtain ⟨left, owners, hleft, htake, hmoves⟩ := Moves.of_folds SortedSet.empty
      (SortedSet.ofList tuples) [] FactOwners.release_spec
      (fun f hf => absurd hf (notMem_empty f))
      (fun f => iff_of_false List.not_mem_nil fun h => notMem_empty f h.1)
      List.nodup_nil
      (fun f => (and_iff_left (notMem_empty f)).symm) (sortedSet_nodup _) htaken
    obtain rfl := some.inj hleft
    refine ⟨_, congrArg (Option.map _) htake, .moved (hmoves _ rfl (fun f => ?_) ?_)
      (fun f hf => absurd hf (notMem_empty f))
      fun f hf _ => mem_ofList.mp hf⟩
    · have hcount := SortedMap.count_insert (m := w.state.endpoints) (k := endpoint)
        (v := ⟨SortedMap.empty.insert endpointScope (SortedSet.ofList tuples)⟩)
        fun r => decide (f ∈ r.facts)
      rw [habsent, contribution_facts] at hcount
      simp only [EndpointResources.mem_facts_single] at hcount
      rwa [if_neg (notMem_empty f)]
    · exact FactCatalog.openEndpoint_writes hwrite

theorem closeEndpointResources_outcome (h : w.Counted) (endpoint : Identity)
    (failure : Option KernelError) :
    ∃ answer, w.closeEndpointResources c endpoint failure = some answer ∧
      Outcome c w [] answer := by
  unfold closeEndpointResources
  rcases hget : w.state.endpoints.get? endpoint with _ | r
  · exact ⟨_, rfl, .unmoved (Unmoved.refl w)⟩
  dsimp only
  rcases hwrite : c.closeEndpoint failure w.rows endpoint
      (w.state.volatileFactOwners.retracted r.facts.list) with _ | out
  · exact ⟨_, rfl, .refused _⟩
  have htaken : ([] : List NamedFact).mapM (w.provenance c) = .ok [] := rfl
  obtain ⟨left, owners, hleft, htake, hmoves⟩ := Moves.of_folds r.facts SortedSet.empty r.facts.list
    FactOwners.releaseOwned_spec (fun f hf => h.owned hget hf)
    (fun f => (and_iff_left (notMem_empty f)).symm) (sortedSet_nodup _)
    (fun f => iff_of_false List.not_mem_nil fun h => notMem_empty f h.1)
    List.nodup_nil htaken
  obtain rfl := some.inj htake
  refine ⟨_, congrArg (Option.map _) hleft, .moved (hmoves _ rfl (fun f => ?_) ?_)
    (fun f hf => h.owned hget hf) fun f hf => absurd hf (notMem_empty f)⟩
  · have hcount := SortedMap.count_erase (m := w.state.endpoints) (k := endpoint)
      fun r => decide (f ∈ r.facts)
    rw [hget, contribution_facts] at hcount
    rwa [if_neg (notMem_empty f)]
  · exact FactCatalog.closeEndpoint_writes hwrite

theorem replaceScopeLocked_outcome (h : w.Counted) {endpoint : Identity} {r : EndpointResources}
    (hget : w.state.endpoints.get? endpoint = some r) (scope : Symbol) (next : SortedSet NamedFact)
    (failure : Option KernelError) {facts : List NamedFact}
    (hfacts : ∀ f ∈ next, f ∉ r.facts → f ∈ facts) :
    ∃ answer, w.replaceScopeLocked c endpoint scope next failure = some answer ∧
      Outcome c w facts answer := by
  unfold replaceScopeLocked
  rw [hget]
  dsimp only
  set previousOwned := SortedSet.ofList
    (((r.scopes.get? scope).getD SortedSet.empty).list ++ (r.otherFacts scope).list) with hprevious
  set nextOwned := SortedSet.ofList (next.list ++ (r.otherFacts scope).list) with hnext
  have hold : previousOwned = r.facts := ext_mem fun f => by
    rw [hprevious, mem_ofList, List.mem_append, r.mem_facts_iff scope]
    rfl
  have hnew : nextOwned = EndpointResources.facts ⟨r.scopes.insert scope next⟩ :=
    ext_mem fun f => by
      rw [hnext, mem_ofList, List.mem_append, EndpointResources.mem_facts_insert]
      rfl
  rw [hold, hnew]
  set new := EndpointResources.facts ⟨r.scopes.insert scope next⟩ with hnewFacts
  rcases htaken : (new.filter fun f => decide (f ∉ r.facts)).list.mapM
      (w.state.volatileFactOwners.provenance c w.rows) with e | taken
  · exact ⟨_, rfl, .refused e⟩
  dsimp only
  rcases hwrite : c.replaceVolatileTuples failure w.rows
      (w.state.volatileFactOwners.retracted (r.facts.filter fun f => decide (f ∉ new)).list)
      (FactOwners.asserted taken) with _ | out
  · exact ⟨_, rfl, .refused _⟩
  obtain ⟨left, owners, hleft, htake, hmoves⟩ := Moves.of_folds r.facts new
    (r.facts.filter fun f => decide (f ∉ new)).list FactOwners.release_spec
    (fun f hf => h.owned hget hf)
    (fun f => by rw [mem_list, mem_filter, decide_eq_true_iff])
    (sortedSet_nodup _)
    (fun f => by rw [mem_list, mem_filter, decide_eq_true_iff])
    (sortedSet_nodup _) htaken
  simp only [hleft, htake, Option.bind_some, Option.map_some]
  refine ⟨_, rfl, .moved (hmoves _ rfl (fun f => ?_) ?_) (fun f hf => h.owned hget hf)
    fun f hf hnot => ?_⟩
  · have hcount := SortedMap.count_insert (m := w.state.endpoints) (k := endpoint)
      (v := ⟨r.scopes.insert scope next⟩) fun r => decide (f ∈ r.facts)
    rwa [hget, contribution_facts, contribution_facts] at hcount
  · exact FactCatalog.replaceVolatileTuples_writes hwrite
  · refine hfacts f (((r.mem_facts_insert scope next f).mp hf).resolve_right fun hother => ?_) hnot
    exact hnot ((r.mem_facts_iff scope f).mpr (.inr hother))

theorem exists_resources {endpoint : Identity}
    (h : ensureEndpointResourceUpdate w.state endpoint = none) :
    ∃ r, w.state.endpoints.get? endpoint = some r := by
  unfold ensureEndpointResourceUpdate at h
  split_ifs at h with _ hclosed
  have hsome : w.state.endpoints.get? endpoint ≠ none := fun hnone =>
    hclosed (.inr (by rw [hnone]; rfl))
  exact Option.ne_none_iff_exists'.mp hsome

theorem replaceEndpointVolatileScope_outcome (h : w.Counted) (endpoint : Identity) (scope : Symbol)
    (facts : List NamedFact) (failure : Option KernelError) :
    ∃ answer, w.replaceEndpointVolatileScope c endpoint scope facts failure = some answer ∧
      Outcome c w facts answer := by
  unfold replaceEndpointVolatileScope
  cases hensure : ensureEndpointResourceUpdate w.state endpoint with
  | some e => exact ⟨_, rfl, .refused e⟩
  | none =>
    obtain ⟨r, hget⟩ := exists_resources hensure
    exact replaceScopeLocked_outcome h hget scope _ failure fun f hf _ => mem_ofList.mp hf

theorem applyEndpointVolatileScopeDiff_outcome (h : w.Counted) (endpoint : Identity) (scope : Symbol)
    (retract assert : List NamedFact) (failure : Option KernelError) :
    ∃ answer, w.applyEndpointVolatileScopeDiff c endpoint scope retract assert failure =
      some answer ∧ Outcome c w assert answer := by
  unfold applyEndpointVolatileScopeDiff
  cases hensure : ensureEndpointResourceUpdate w.state endpoint with
  | some e => exact ⟨_, rfl, .refused e⟩
  | none =>
    obtain ⟨r, hget⟩ := exists_resources hensure
    dsimp only
    split
    · exact ⟨_, rfl, .refused _⟩
    refine replaceScopeLocked_outcome h hget scope _ failure fun f hf hnot => ?_
    rw [diffScope, mem_ofList, List.mem_append] at hf
    refine hf.resolve_left fun hkept => hnot ((r.mem_facts_iff scope f).mpr (.inl ?_))
    have hprevious := (mem_filter.mp hkept).1
    rwa [scopeFacts, hget] at hprevious

/-- **Every operation on a counted state comes to an outcome**, and none panics. -/
theorem apply_outcome (h : w.Counted) (endpointScope : Symbol) : ∀ step : FactStep,
    ∃ answer, w.apply c endpointScope step = some answer ∧ Outcome c w step.facts answer
  | .openEndpoint .. => openEndpoint_outcome ..
  | .markEndpointClosed _ => ⟨_, rfl, .unmoved ⟨rfl, rfl, rfl⟩⟩
  | .closeEndpointResources .. => closeEndpointResources_outcome h ..
  | .replaceScope .. => replaceEndpointVolatileScope_outcome h ..
  | .scopeDiff .. => applyEndpointVolatileScopeDiff_outcome h ..
  | .lifecycle .. => ⟨_, rfl, .unmoved ⟨rfl, rfl, rfl⟩⟩

theorem Unmoved.holders (h : w.Unmoved w') (f : NamedFact) : w'.holders f = w.holders f := by
  rw [FactWorld.holders, h.1, FactWorld.holders]

theorem Unmoved.ownership (h : w.Unmoved w') (f : NamedFact) : w'.ownership f = w.ownership f := by
  rw [FactWorld.ownership, h.2.1, FactWorld.ownership]

theorem Unmoved.counted (h : w.Unmoved w') (hcounted : w.Counted) : w'.Counted := by
  refine ⟨fun f => ?_, fun f o ho => hcounted.positive f o (h.ownership f ▸ ho)⟩
  rw [h.holders, owners, h.ownership]
  exact hcounted.owners_eq f

theorem Unmoved.held (h : w.Unmoved w') (hheld : w.Held c start) : w'.Held c start := fun f hf => by
  rw [h.ownership, h.2.2]
  exact hheld f hf

/-- **Whatever an operation comes to, the counts stay right**, and so do the facts if what it takes is
found only where it is stored. -/
theorem Outcome.preserves {facts : List NamedFact} {answer : FactAnswer} (start : Finset Fact)
    (h : w.Counted)
    (hout : Outcome c w facts answer) :
    answer.2.Counted ∧ ((∀ f ∈ facts, TakenFromStore c w f) → w.Held c start →
      answer.2.Held c start) := by
  cases hout with
  | refused e => exact ⟨h, fun _ hheld => hheld⟩
  | unmoved hsame => exact ⟨hsame.counted h, fun _ hheld => hsame.held hheld⟩
  | moved hmoves howned hnew =>
    exact ⟨h.moves hmoves howned, fun htaken hheld =>
      hheld.moves hmoves howned fun f hf hnot => htaken f (hnew f hf hnot)⟩

/-! ## Runs -/

/-- **A driver that has opened nothing yet.** -/
def Fresh (w : FactWorld) : Prop :=
  w.state.endpoints = SortedMap.empty ∧ w.state.volatileFactOwners = SortedMap.empty

/-- **A run**: every fact that a step brings and that has no owner is derived only where it is
stored. -/
inductive Run (c : FactCatalog) (endpointScope : Symbol) (first : FactWorld) : FactWorld → Prop
  | start : Run c endpointScope first first
  | step {w : FactWorld} {step : FactStep} {answer : FactAnswer}
      (hrun : Run c endpointScope first w) (hstep : w.apply c endpointScope step = some answer)
      (htaken : ∀ f ∈ step.facts, TakenFromStore c w f) : Run c endpointScope first answer.2

variable {first : FactWorld} {endpointScope : Symbol}

theorem Fresh.ownership (h : w.Fresh) (f : NamedFact) : w.ownership f = none := by
  rw [FactWorld.ownership, h.2]
  rfl

theorem Run.invariants (h : Run c endpointScope first w) (hfresh : first.Fresh) :
    w.Counted ∧ w.Held c first.rows := by
  induction h with
  | start =>
    refine ⟨⟨fun f => ?_, fun f o ho => ?_⟩, fun f _ => ?_⟩
    · rw [owners, hfresh.ownership, holders, hfresh.1]
      rfl
    · cases (hfresh.ownership f).symm.trans ho
    · rw [hfresh.ownership]
      exact Iff.rfl
  | @step w step answer _ hstep htaken ih =>
    obtain ⟨answer', hanswer, hout⟩ := apply_outcome (c := c) ih.1 endpointScope step
    obtain rfl := some.inj (hanswer.symm.trans hstep)
    obtain ⟨hcounted, hheld⟩ := hout.preserves first.rows ih.1
    exact ⟨hcounted, hheld htaken ih.2⟩

/-- **Facts of endpoints are counted exactly.**  In every state of a run the owners of a fact are
the open endpoints that have it in a scope; a fact outside the endpoint relations that no rule adds
is in its relation exactly if it has an owner or was stored at the start; and an operation never
panics, and leaves scopes, owners and facts as they were if it returns an error. -/
theorem volatile_facts_counted (hfresh : first.Fresh) (hrun : Run c endpointScope first w) :
    (∀ f, w.owners f = w.holders f) ∧
      (∀ f, c.Ordinary f → (c.DerivedFact w.rows f → c.Stored w.rows f) →
        (c.Present w.rows f ↔ 0 < w.owners f ∨ c.Stored first.rows f)) ∧
      ∀ step, ∃ answer, w.apply c endpointScope step = some answer ∧
        ∀ e, answer.1 = .error e → w.Unmoved answer.2 := by
  obtain ⟨hcounted, hheld⟩ := hrun.invariants hfresh
  refine ⟨hcounted.owners_eq, fun f hordinary hderived => ?_, fun step => ?_⟩
  · have hpresent : c.Present w.rows f ↔ c.Stored w.rows f := ⟨fun h => h.elim id hderived, .inl⟩
    have hf := hheld f hordinary
    rw [hpresent, owners]
    rcases ho : w.ownership f with _ | o
    · rw [ho] at hf
      exact hf.trans (or_iff_right (lt_irrefl 0)).symm
    rw [ho] at hf
    exact iff_of_true hf.1 (.inl (Nat.pos_of_ne_zero (hcounted.positive f o ho)))
  obtain ⟨answer, hanswer, hout⟩ := apply_outcome (c := c) hcounted endpointScope step
  refine ⟨answer, hanswer, fun e he => ?_⟩
  cases hout with
  | refused e => exact Unmoved.refl w
  | unmoved h => cases he
  | moved hmoves howned hnew => cases he

/-! ## A fact that only a rule shows -/

/-- Two unary volatile relations beside those of the endpoints. -/
def twoRelations (derived : Finset Fact → RelationId → Except KernelError (Finset Tuple)) :
    FactCatalog where
  relations := [((.ofByte 1 : RelationId), (⟨0⟩ : Symbol), 1), (.ofByte 2, ⟨1⟩, 1),
      (endpointOpenRelation, ⟨2⟩, 1), (endpointProtocolRelation, ⟨3⟩, 2),
      (endpointPrincipalRelation, ⟨4⟩, 2), (endpointActorRelation, ⟨5⟩, 2),
      (endpointRelation, ⟨6⟩, 1)].foldl
    (fun m r => m.insert r.1 { RelationMetadata.new r.1 r.2.1 r.2.2 with durability := .volatile })
    SortedMap.empty
  derived := derived

def firstFact : NamedFact := ⟨⟨0⟩, [.bool true]⟩
def secondFact : NamedFact := ⟨⟨1⟩, [.bool true]⟩

/-- The first relation has the rows of the second: `First(x) :- Second(x)`. -/
def copyRule (rows : Finset Fact) (relation : RelationId) : Except KernelError (Finset Tuple) :=
  .ok (if relation = .ofByte 1 then
    (rows.filter fun row => row.1 = (.ofByte 2 : RelationId)).image Prod.snd else ∅)

/-- A driver that runs and has opened nothing. -/
def running : FactWorld where
  state := ⟨true, 8, ∅, SortedMap.empty, ∅, SortedMap.empty⟩
  rows := ∅

def applyAll (c : FactCatalog) (endpointScope : Symbol) (w : FactWorld) (steps : List FactStep) :
    Option FactWorld :=
  steps.foldlM (fun w step => (w.apply c endpointScope step).map Prod.snd) w

/-- One endpoint brings `Second(true)`, another `First(true)`, and the first closes. -/
def lostFactSteps : List FactStep :=
  [.openEndpoint ⟨10, by decide⟩ none none ⟨8⟩ [secondFact] none,
    .openEndpoint ⟨11, by decide⟩ none none ⟨8⟩ [firstFact] none,
    .markEndpointClosed ⟨10, by decide⟩,
    .closeEndpointResources ⟨10, by decide⟩ none]

/-- **A fact that only a rule showed is lost**: its owner is open and counted, and nothing shows it. -/
theorem derived_fact_is_lost : ∃ w, running.applyAll
    (twoRelations copyRule) ⟨7⟩ lostFactSteps = some w ∧
    w.owners firstFact = 1 ∧ w.holders firstFact = 1 ∧
      ¬ (twoRelations copyRule).Present w.rows firstFact := by
  have hrun : ((running.applyAll (twoRelations copyRule) ⟨7⟩ lostFactSteps).map fun w =>
      (w.owners firstFact, w.holders firstFact,
        ((twoRelations copyRule).containsNamedTuple w.rows firstFact).toOption)) =
      some (1, 1, some false) := by
    decide +kernel
  obtain ⟨w, hw, heq⟩ := Option.map_eq_some_iff.mp hrun
  obtain ⟨howners, hholders, hcontains⟩ : w.owners firstFact = 1 ∧ w.holders firstFact = 1 ∧
      ((twoRelations copyRule).containsNamedTuple w.rows firstFact).toOption = some false := by
    simpa using heq
  refine ⟨w, hw, howners, hholders, fun hpresent => ?_⟩
  rcases hfound : (twoRelations copyRule).containsNamedTuple w.rows firstFact with _ | present
  · rw [hfound] at hcontains
    cases hcontains
  rw [hfound] at hcontains
  obtain rfl : present = false := some.inj hcontains
  exact Bool.false_ne_true ((FactCatalog.containsNamedTuple_spec hfound).2.mpr hpresent)

/-- Where no rule adds a fact, any steps make a run. -/
theorem Run.applyAll (hnone : ∀ rows f, ¬ c.DerivedFact rows f) :
    ∀ {steps : List FactStep} {w : FactWorld}, Run c endpointScope first w →
      w.applyAll c endpointScope steps = some w' → Run c endpointScope first w' := by
  intro steps
  induction steps with
  | nil =>
    intro w hrun hsteps
    exact some.inj hsteps ▸ hrun
  | cons step steps ih =>
    intro w hrun hsteps
    obtain ⟨w₁, hstep, hrest⟩ := Option.bind_eq_some_iff.mp hsteps
    obtain ⟨answer, hanswer, rfl⟩ := Option.map_eq_some_iff.mp hstep
    exact ih (.step hrun hanswer fun f _ _ hderived => absurd hderived (hnone _ f)) hrest

/-- Two endpoints bring one fact; a scope of the second takes over another fact of the first for a
while; then the first closes. -/
def sharedFactSteps : List FactStep :=
  [.openEndpoint ⟨10, by decide⟩ none none ⟨8⟩ [secondFact, firstFact] none,
    .openEndpoint ⟨11, by decide⟩ none none ⟨8⟩ [secondFact] none,
    .scopeDiff ⟨11, by decide⟩ ⟨9⟩ [] [firstFact, secondFact] none,
    .scopeDiff ⟨11, by decide⟩ ⟨9⟩ [firstFact] [] none,
    .markEndpointClosed ⟨10, by decide⟩,
    .closeEndpointResources ⟨10, by decide⟩ none]

/-- Of the facts of a closed endpoint the shared one stays, with one owner, and the other goes. -/
theorem volatile_facts_counted_shared : ∃ w,
    running.applyAll (twoRelations fun _ _ => .ok ∅) ⟨7⟩ sharedFactSteps = some w ∧
      w.owners secondFact = 1 ∧ (twoRelations fun _ _ => .ok ∅).Present w.rows secondFact ∧
      w.owners firstFact = 0 ∧ ¬ (twoRelations fun _ _ => .ok ∅).Present w.rows firstFact := by
  have hrun : ((running.applyAll (twoRelations fun _ _ => .ok ∅) ⟨7⟩ sharedFactSteps).map fun w =>
      (w.owners secondFact, w.owners firstFact)) = some (1, 0) := by
    decide +kernel
  obtain ⟨w, hw, heq⟩ := Option.map_eq_some_iff.mp hrun
  obtain ⟨hsecond, hfirst⟩ : w.owners secondFact = 1 ∧ w.owners firstFact = 0 := by
    simpa using heq
  have hnone : ∀ rows f, ¬ (twoRelations fun _ _ => .ok ∅).DerivedFact rows f := by
    rintro rows f ⟨row, derived, -, hderived, hmem⟩
    exact Finset.notMem_empty _ (Except.ok.inj hderived ▸ hmem)
  obtain ⟨-, hpresent, -⟩ := volatile_facts_counted (show running.Fresh from ⟨rfl, rfl⟩)
    (Run.applyAll hnone .start hw)
  have hordinary : ∀ f ∈ [secondFact, firstFact], (twoRelations fun _ _ => .ok ∅).Ordinary f := by
    have hrows : ∀ f ∈ [secondFact, firstFact],
        (((twoRelations fun _ _ => .ok ∅).rowOf f).all fun row => row.1 ∉ endpointRelations) =
          true := by
      decide +kernel
    intro f hf row hrow
    have := hrows f hf
    rw [hrow] at this
    exact of_decide_eq_true this
  have hexact : ∀ f ∈ [secondFact, firstFact],
      ((twoRelations fun _ _ => .ok ∅).Present w.rows f ↔ 0 < w.owners f ∨
        (twoRelations fun _ _ => .ok ∅).Stored running.rows f) :=
    fun f hf => hpresent f (hordinary f hf) fun h => absurd h (hnone _ _)
  refine ⟨w, hw, hsecond, (hexact _ (by simp)).mpr (.inl (hsecond ▸ Nat.one_pos)), hfirst, fun h => ?_⟩
  rcases (hexact _ (by simp)).mp h with howned | ⟨row, -, hstored⟩
  · exact absurd hfirst howned.ne'
  · exact Finset.notMem_empty _ hstored

end FactWorld

end Mica
