import Mica.Kernel.CompiledRule
import Mica.Lib.Relaxation
import Mica.Lib.Search

/-!
# Kernel/Stratify — strata, components and the order of evaluation

A rule set is evaluated stratum by stratum, and within a stratum component by component.  The strata
come from relaxation: a head lies at least as high as the derived relations of its body, and above
those it negates.  The components of a stratum are the relations that depend on one another, in an
order that a depth-first visit gives.

* `RuleSet.validateStratified_iff` — there are strata exactly when no cycle passes through a negated
  atom.
* `RuleSet.stratification_exact` — and then every rule is evaluated, in a component that reads its own
  relations, positively, and relations that no component from there on writes.
-/

open SortedList List SortedSet

namespace Mica

/-! ## Strata -/

/-- What a rule asks of the strata: its head lies as high as the derived relations of its body, and
above those it negates. -/
def Rule.constraint (derived : SortedSet RelationId) (rule : Rule) :
    Relaxation.Constraint RelationId where
  head := rule.headRelation
  below := (rule.bodyAtoms.filter fun atom => atom.relation ∈ derived).map fun atom =>
    (atom.relation, if atom.negated then 1 else 0)

structure RuleSet where
  rules : List Rule
  deriving DecidableEq

/-- The relations that some rule derives. -/
def headRelations (rules : List Rule) : SortedSet RelationId :=
  SortedSet.ofList (rules.map Rule.headRelation)

/-- `RuleSet::relation_strata`. -/
def RuleSet.relationStrata (set : RuleSet) : Except RuleError (RelationId → ℕ) :=
  let derived := headRelations set.rules
  match Relaxation.levels (set.rules.map (Rule.constraint derived)) (derived.list.length + 1)
      fun _ => 0 with
  | some strata => .ok strata
  | none => .error .unstratifiedNegation

/-- `RuleSet::stratified_rules`: the rules of each stratum, from the lowest up. -/
def RuleSet.stratifiedRules (set : RuleSet) : Except RuleError (List (List Rule)) := do
  let strata ← set.relationStrata
  let levels := SortedSet.ofList (set.rules.map fun rule => strata rule.headRelation)
  return levels.list.map fun level =>
    set.rules.filter fun rule => strata rule.headRelation = level

/-- `RuleSet::validate_stratified`. -/
def RuleSet.validateStratified (set : RuleSet) : Except RuleError Unit := do
  let _ ← set.stratifiedRules
  return ()

/-! ## Components -/

structure CompiledRuleVariant where
  ruleIndex : ℕ
  deltaBodyIndex : ℕ
  deriving DecidableEq

structure CompiledScc where
  targetRelations : SortedSet RelationId
  ruleIndices : List ℕ
  seedRuleIndices : List ℕ
  recursiveVariants : List CompiledRuleVariant

structure CompiledStratum where
  rules : List CompiledRule
  components : List CompiledScc

structure CompiledRuleSet where
  strata : List CompiledStratum

/-- `positive_dependencies`. -/
def positiveDependencies (rules : List Rule) (targetRelations : SortedSet RelationId)
    (relation : RelationId) : SortedSet RelationId :=
  let atoms := (rules.filter fun rule => rule.headRelation = relation).flatMap Rule.bodyAtoms
  SortedSet.ofList ((atoms.filter fun atom =>
    !atom.negated && atom.relation ∈ targetRelations).map Atom.relation)

/-- `reachable_relations`; the loop looks at most once at the start and at every dependency. -/
def reachableRelations (relations : SortedSet RelationId)
    (dependencies : RelationId → SortedSet RelationId) (start : RelationId) :
    SortedSet RelationId :=
  Search.closure (fun relation => (dependencies relation).list)
    (1 + (relations.list.map fun relation => (dependencies relation).list.length).sum)
    SortedSet.empty [start]

/-- The loop of `strongly_connected_relations`: the first relation that is left takes with it all that
it reaches and that reach it. -/
def takeComponents (reachable : RelationId → SortedSet RelationId) :
    ℕ → SortedSet RelationId → List (SortedSet RelationId)
  | 0, _ => []
  | n + 1, remaining =>
    match remaining.list with
    | [] => []
    | root :: _ =>
      let component := remaining.filter fun relation =>
        relation ∈ reachable root && root ∈ reachable relation
      component :: takeComponents reachable n (remaining.filter fun relation => relation ∉ component)

/-- `strongly_connected_relations`. -/
def stronglyConnectedRelations (relations : SortedSet RelationId)
    (dependencies : RelationId → SortedSet RelationId) : List (SortedSet RelationId) :=
  takeComponents (reachableRelations relations dependencies) relations.list.length relations

/-- The components that a component depends on, by their indices. -/
def componentDependencies (components : List (SortedSet RelationId))
    (dependencies : RelationId → SortedSet RelationId) (index : ℕ) : List ℕ :=
  let relations := (components[index]?.getD SortedSet.empty).list
  let indices := (relations.flatMap fun relation => (dependencies relation).list).map fun relation =>
    components.findIdx fun component => relation ∈ component
  (SortedSet.ofList (indices.filter fun dependency => dependency ≠ index)).list

/-- `order_relation_components`; a visit goes no deeper than there are components. -/
def orderRelationComponents (components : List (SortedSet RelationId))
    (dependencies : RelationId → SortedSet RelationId) : List (SortedSet RelationId) :=
  let ordered := ((List.range components.length).foldl
    (Search.visit (componentDependencies components dependencies) components.length)
    (SortedSet.empty, [])).2
  ordered.filterMap fun index => components[index]?

/-- The places of a rule's body that read the component itself. -/
def recursiveBodyIndices (targetRelations : SortedSet RelationId) (rule : CompiledRule) : List ℕ :=
  (List.range rule.body.length).filter fun index =>
    match rule.body[index]? with
    | some (.atom atom) => !atom.negated && atom.relation ∈ targetRelations
    | _ => false

/-- `compile_component`. -/
def compileComponent (rules : List CompiledRule) (targetRelations : SortedSet RelationId) :
    CompiledScc :=
  let ruleIndices := (List.range rules.length).filter fun index =>
    rules[index]?.any fun rule => rule.headRelation ∈ targetRelations
  let recursive := fun index =>
    (rules[index]?.map (recursiveBodyIndices targetRelations)).getD []
  { targetRelations, ruleIndices
    seedRuleIndices := ruleIndices.filter fun index => (recursive index).isEmpty
    recursiveVariants := ruleIndices.flatMap fun index =>
      (recursive index).map fun bodyIndex => ⟨index, bodyIndex⟩ }

/-- `compile_stratum`. -/
def compileStratum (rules : List Rule) : CompiledStratum :=
  let compiledRules := rules.map compileRule
  let targetRelations := headRelations rules
  let dependencies := positiveDependencies rules targetRelations
  let relationComponents := stronglyConnectedRelations targetRelations dependencies
  let orderedComponents := orderRelationComponents relationComponents dependencies
  ⟨compiledRules, orderedComponents.map (compileComponent compiledRules)⟩

/-- `RuleSet::compile`. -/
def RuleSet.compile (set : RuleSet) : Except RuleError CompiledRuleSet := do
  let strata ← set.stratifiedRules
  return ⟨strata.map compileStratum⟩

/-! ## Strata exist exactly when no cycle is negative -/

namespace RuleSet

variable {set : RuleSet} {strata : RelationId → ℕ} {x y z : RelationId}

/-- The head of a rule depends on each relation of its body, by an atom with the given sign. -/
def DependsOn (set : RuleSet) (negated : Bool) (head body : RelationId) : Prop :=
  ∃ rule ∈ set.rules, rule.headRelation = head ∧
    ∃ atom ∈ rule.bodyAtoms, atom.relation = body ∧ atom.negated = negated

/-- A relation depends on another, at once or through further relations. -/
def Reaches (set : RuleSet) : RelationId → RelationId → Prop :=
  Relation.ReflTransGen fun head body => ∃ negated, set.DependsOn negated head body

/-- **A cycle of dependencies passes through a negated atom.** -/
def NegativeCycle (set : RuleSet) : Prop :=
  ∃ head body, set.DependsOn true head body ∧ set.Reaches body head

/-- The strata that a rule set may be evaluated in. -/
def Stratifies (set : RuleSet) (strata : RelationId → ℕ) : Prop :=
  ∀ head body negated, set.DependsOn negated head body → body ∈ headRelations set.rules →
    strata body + (if negated then 1 else 0) ≤ strata head

theorem mem_headRelations {rules : List Rule} :
    x ∈ headRelations rules ↔ ∃ rule ∈ rules, rule.headRelation = x :=
  mem_ofList.trans mem_map

theorem DependsOn.mem_headRelations {negated : Bool} (h : set.DependsOn negated x y) :
    x ∈ headRelations set.rules :=
  RuleSet.mem_headRelations.mpr (h.imp fun _ h => ⟨h.1, h.2.1⟩)

/-- The constraints of the rules say what strata must satisfy. -/
theorem satisfies_constraints :
    Relaxation.Satisfies (set.rules.map (Rule.constraint (headRelations set.rules))) strata ↔
      set.Stratifies strata := by
  constructor
  · rintro h _ _ _ ⟨rule, hrule, rfl, atom, hatom, rfl, rfl⟩ hbody
    exact h _ (mem_map_of_mem hrule) _
      (mem_map_of_mem (mem_filter.mpr ⟨hatom, decide_eq_true hbody⟩))
  rintro h c hc d hd
  obtain ⟨rule, hrule, rfl⟩ := mem_map.mp hc
  obtain ⟨atom, hatom, rfl⟩ := mem_map.mp hd
  obtain ⟨hatom, hbody⟩ := mem_filter.mp hatom
  exact h _ _ _ ⟨rule, hrule, rfl, atom, hatom, rfl, rfl⟩ (of_decide_eq_true hbody)

theorem card_heads : (Relaxation.heads
    (set.rules.map (Rule.constraint (headRelations set.rules)))).card =
      (headRelations set.rules).list.length := by
  rw [← toFinset_card_of_nodup ((headRelations set.rules).sorted.imp ne_of_lt)]
  refine congrArg Finset.card (Finset.ext fun x => ?_)
  rw [Relaxation.heads, mem_toFinset, mem_toFinset, mem_list, mem_headRelations]
  simp [Rule.constraint]

theorem relationStrata_eq_ok (h : set.relationStrata = .ok strata) : set.Stratifies strata := by
  unfold relationStrata at h
  dsimp only at h
  split at h
  · next levels hlevels =>
    obtain rfl := Except.ok.inj h
    exact satisfies_constraints.mp (Relaxation.levels_sound hlevels)
  · exact nomatch h

/-- **Relaxation finds strata whenever there are any.** -/
theorem exists_relationStrata (h : set.Stratifies strata) :
    ∃ strata, set.relationStrata = .ok strata := by
  obtain ⟨found, hfound⟩ := Relaxation.exists_levels (satisfies_constraints.mpr h)
  rw [card_heads] at hfound
  exact ⟨found, by rw [relationStrata, hfound]⟩

/-- A relation that reaches a derived relation lies at least as high. -/
theorem Stratifies.le_of_reaches (h : set.Stratifies strata) (hxy : set.Reaches x y)
    (hy : y ∈ headRelations set.rules) : strata y ≤ strata x := by
  induction hxy using Relation.ReflTransGen.head_induction_on with
  | refl => exact le_rfl
  | head hstep hrest ih =>
    obtain ⟨negated, hstep⟩ := hstep
    refine ih.trans ((Nat.le_add_right _ _).trans (h _ _ negated hstep ?_))
    -- what has dependencies of its own, or is the derived relation itself, is derived
    rcases Relation.ReflTransGen.cases_head hrest with rfl | ⟨_, ⟨_, hnext⟩, _⟩
    · exact hy
    · exact hnext.mem_headRelations

theorem Stratifies.not_negativeCycle (h : set.Stratifies strata) : ¬ set.NegativeCycle := by
  rintro ⟨head, body, hneg, hreach⟩
  have hhead := hneg.mem_headRelations
  have hbody : body ∈ headRelations set.rules := by
    rcases Relation.ReflTransGen.cases_head hreach with rfl | ⟨_, ⟨_, hnext⟩, _⟩
    · exact hhead
    · exact hnext.mem_headRelations
  have hup := h head body true hneg hbody
  have hdown := h.le_of_reaches hreach hhead
  simp only [if_true] at hup
  omega

open Classical in
/-- The derived relations that a relation reaches through a negation. -/
noncomputable def negatedBelow (set : RuleSet) (x : RelationId) : Finset RelationId :=
  (headRelations set.rules).list.toFinset.filter fun w =>
    ∃ y z, set.Reaches x y ∧ set.DependsOn true y z ∧ set.Reaches z w

theorem mem_negatedBelow : z ∈ set.negatedBelow x ↔ z ∈ headRelations set.rules ∧
    ∃ y w, set.Reaches x y ∧ set.DependsOn true y w ∧ set.Reaches w z := by
  simp only [negatedBelow, Finset.mem_filter, mem_toFinset, mem_list]

theorem negatedBelow_subset {negated : Bool} (h : set.DependsOn negated x y) :
    set.negatedBelow y ⊆ set.negatedBelow x := by
  intro z hz
  obtain ⟨hhead, v, w, hreach, hneg, hrest⟩ := mem_negatedBelow.mp hz
  exact mem_negatedBelow.mpr ⟨hhead, v, w, hreach.head ⟨negated, h⟩, hneg, hrest⟩

/-- **Without a negative cycle there are strata**: count what lies below a negation. -/
theorem stratifies_of_not_negativeCycle (h : ¬ set.NegativeCycle) :
    set.Stratifies fun x => (set.negatedBelow x).card := by
  intro head body negated hdep hbody
  cases negated with
  | false => exact Finset.card_le_card (negatedBelow_subset hdep)
  | true =>
    refine Finset.card_lt_card ((negatedBelow_subset hdep).ssubset_of_mem_notMem
      (mem_negatedBelow.mpr ⟨hbody, head, body, .refl, hdep, .refl⟩) fun hself => h ?_)
    obtain ⟨-, v, w, hreach, hneg, hrest⟩ := mem_negatedBelow.mp hself
    exact ⟨v, w, hneg, hrest.trans hreach⟩

theorem validateStratified_iff_relationStrata :
    set.validateStratified = .ok () ↔ ∃ strata, set.relationStrata = .ok strata := by
  unfold validateStratified stratifiedRules
  cases set.relationStrata with
  | error e => exact ⟨nofun, fun ⟨_, h⟩ => nomatch h⟩
  | ok strata => exact ⟨fun _ => ⟨strata, rfl⟩, fun _ => rfl⟩

/-- **A rule set is accepted exactly when no cycle passes through a negated atom.** -/
theorem validateStratified_iff : set.validateStratified = .ok () ↔ ¬ set.NegativeCycle := by
  rw [validateStratified_iff_relationStrata]
  refine ⟨fun ⟨strata, h⟩ => (relationStrata_eq_ok h).not_negativeCycle, fun h => ?_⟩
  exact exists_relationStrata (stratifies_of_not_negativeCycle h)

end RuleSet

/-! ## The components of one stratum -/

section Components

variable {relations : SortedSet RelationId} {dependencies : RelationId → SortedSet RelationId}

/-- One relation depends positively on another. -/
def Leads (dependencies : RelationId → SortedSet RelationId) : RelationId → RelationId → Prop :=
  Search.Leads fun relation => (dependencies relation).list

/-- The dependencies stay among the relations of the stratum. -/
def ClosedUnder (relations : SortedSet RelationId)
    (dependencies : RelationId → SortedSet RelationId) : Prop :=
  ∀ x ∈ relations, ∀ y ∈ dependencies x, y ∈ relations

theorem mem_reachableRelations (hclosed : ClosedUnder relations dependencies) {start z : RelationId}
    (hstart : start ∈ relations) :
    z ∈ reachableRelations relations dependencies start ↔ Leads dependencies start z := by
  unfold reachableRelations
  rw [← sum_toFinset _ (relations.sorted.imp ne_of_lt)]
  refine Search.mem_closure (fun x hx y hy => ?_) (mem_toFinset.mpr hstart)
  exact mem_toFinset.mpr (hclosed x (mem_toFinset.mp hx) y hy)

/-- Two relations depend on one another. -/
def Mutual (dependencies : RelationId → SortedSet RelationId) (x y : RelationId) : Prop :=
  Leads dependencies x y ∧ Leads dependencies y x

theorem Mutual.refl (x : RelationId) : Mutual dependencies x x := ⟨.refl, .refl⟩

theorem Mutual.symm {x y : RelationId} (h : Mutual dependencies x y) : Mutual dependencies y x :=
  ⟨h.2, h.1⟩

theorem Mutual.trans {x y z : RelationId} (h : Mutual dependencies x y)
    (h' : Mutual dependencies y z) : Mutual dependencies x z :=
  ⟨Relation.ReflTransGen.trans h.1 h'.1, Relation.ReflTransGen.trans h'.2 h.2⟩

/-- **The classes of the relations that depend on one another.** -/
structure AreComponents (dependencies : RelationId → SortedSet RelationId)
    (remaining : SortedSet RelationId) (components : List (SortedSet RelationId)) : Prop where
  cover : ∀ x ∈ remaining, ∃ c ∈ components, x ∈ c
  inside : ∀ c ∈ components, ∀ x ∈ c, x ∈ remaining
  disjoint : components.Pairwise fun c d => ∀ x ∈ c, x ∉ d
  classes : ∀ c ∈ components, ∀ x ∈ c, ∀ y ∈ remaining, y ∈ c ↔ Mutual dependencies x y

theorem AreComponents.of_empty {remaining : SortedSet RelationId} (h : remaining.list = []) :
    AreComponents dependencies remaining [] where
  cover x hx := by
    rw [← mem_list, h] at hx
    exact nomatch hx
  inside := by simp
  disjoint := List.Pairwise.nil
  classes := by simp

theorem takeComponents_spec {reachable : RelationId → SortedSet RelationId} {n : ℕ}
    {remaining : SortedSet RelationId}
    (hreach : ∀ x ∈ remaining, ∀ z, z ∈ reachable x ↔ Leads dependencies x z)
    (hn : remaining.list.length ≤ n) :
    AreComponents dependencies remaining (takeComponents reachable n remaining) := by
  induction n generalizing remaining with
  | zero => exact AreComponents.of_empty (length_eq_zero_iff.mp (Nat.le_zero.mp hn))
  | succ n ih =>
    unfold takeComponents
    split
    · next hempty => exact AreComponents.of_empty hempty
    rename_i root rest hroot
    dsimp only
    have hrootmem : root ∈ remaining := by
      rw [← mem_list, hroot]
      exact mem_cons_self
    generalize hclass : (remaining.filter fun relation =>
      relation ∈ reachable root && root ∈ reachable relation) = component
    have hmem : ∀ x, x ∈ component ↔ x ∈ remaining ∧ Mutual dependencies root x := by
      intro x
      rw [← hclass, SortedSet.mem_filter, Bool.and_eq_true, decide_eq_true_eq, decide_eq_true_eq]
      exact and_congr_right fun hx => and_congr (hreach root hrootmem x) (hreach x hx root)
    have hleft : ∀ x, x ∈ (remaining.filter fun relation => relation ∉ component) ↔
        x ∈ remaining ∧ x ∉ component := fun x => by
      rw [SortedSet.mem_filter, decide_eq_true_eq]
    have hlen : (remaining.filter fun relation => relation ∉ component).list.length ≤ n := by
      have hlt : (remaining.filter fun relation => relation ∉ component).list.length <
          remaining.list.length := by
        refine length_filter_lt_length_iff_exists.mpr ⟨root, hrootmem, ?_⟩
        simpa using (hmem root).mpr ⟨hrootmem, Mutual.refl root⟩
      omega
    obtain ⟨hcover, hinside, hdisjoint, hmutual⟩ := ih
      (fun x hx => hreach x ((hleft x).mp hx).1) hlen
    refine ⟨fun x hx => ?_, forall_mem_cons.mpr ⟨fun x hx => ((hmem x).mp hx).1, ?_⟩,
      pairwise_cons.mpr ⟨?_, hdisjoint⟩, forall_mem_cons.mpr ⟨?_, ?_⟩⟩
    · by_cases hxc : x ∈ component
      · exact ⟨component, mem_cons_self, hxc⟩
      · obtain ⟨c, hc, hxc⟩ := hcover x ((hleft x).mpr ⟨hx, hxc⟩)
        exact ⟨c, mem_cons_of_mem _ hc, hxc⟩
    · exact fun c hc x hx => ((hleft x).mp (hinside c hc x hx)).1
    · exact fun c hc x hx hxc => ((hleft x).mp (hinside c hc x hxc)).2 hx
    · intro x hx y hy
      have hrx := ((hmem x).mp hx).2
      exact ⟨fun hyc => hrx.symm.trans ((hmem y).mp hyc).2,
        fun hxy => (hmem y).mpr ⟨hy, hrx.trans hxy⟩⟩
    · intro c hc x hx y hy
      have hxl := (hleft x).mp (hinside c hc x hx)
      by_cases hyc : y ∈ component
      · -- a relation of this class is in no later one, and depends on none of it mutually
        refine iff_of_false (fun h => ((hleft y).mp (hinside c hc y h)).2 hyc) fun hxy => ?_
        exact hxl.2 ((hmem x).mpr ⟨hxl.1, ((hmem y).mp hyc).2.trans hxy.symm⟩)
      · exact hmutual c hc x hx y ((hleft y).mpr ⟨hy, hyc⟩)

/-- **The components of a stratum are the classes of its relations.** -/
theorem areComponents_stronglyConnectedRelations (hclosed : ClosedUnder relations dependencies) :
    AreComponents dependencies relations (stronglyConnectedRelations relations dependencies) :=
  takeComponents_spec (fun _ hx _ => mem_reachableRelations hclosed hx) le_rfl

/-! ### Their order -/

variable {components : List (SortedSet RelationId)}

theorem AreComponents.getElem?_eq (h : AreComponents dependencies relations components) {i j : ℕ}
    {c d : SortedSet RelationId} (hc : components[i]? = some c) (hd : components[j]? = some d)
    {x : RelationId} (hxc : x ∈ c) (hxd : x ∈ d) : i = j := by
  obtain ⟨hi, rfl⟩ := List.getElem?_eq_some_iff.mp hc
  obtain ⟨hj, rfl⟩ := List.getElem?_eq_some_iff.mp hd
  have hdisjoint := pairwise_iff_getElem.mp h.disjoint
  rcases lt_trichotomy i j with hij | hij | hij
  · exact absurd hxd (hdisjoint i j hi hj hij x hxc)
  · exact hij
  · exact absurd hxc (hdisjoint j i hj hi hij x hxd)

/-- The index of a relation's component. -/
theorem AreComponents.findIdx_spec (h : AreComponents dependencies relations components)
    {x : RelationId} (hx : x ∈ relations) :
    ∃ c, components[components.findIdx fun component => x ∈ component]? = some c ∧ x ∈ c := by
  obtain ⟨c, hc, hxc⟩ := h.cover x hx
  have hlt : (components.findIdx fun component => x ∈ component) < components.length :=
    findIdx_lt_length_of_exists ⟨c, hc, decide_eq_true hxc⟩
  have hfound := findIdx_getElem (w := hlt)
  exact ⟨_, getElem?_eq_getElem hlt, of_decide_eq_true hfound⟩

/-- A component depends on another if one of its relations depends on one of the other's. -/
theorem AreComponents.mem_componentDependencies
    (h : AreComponents dependencies relations components)
    (hclosed : ClosedUnder relations dependencies) {i j : ℕ} {c d : SortedSet RelationId}
    (hc : components[i]? = some c) (hd : components[j]? = some d) :
    j ∈ componentDependencies components dependencies i ↔
      j ≠ i ∧ ∃ x ∈ c, ∃ y ∈ dependencies x, y ∈ d := by
  have hcmem := mem_of_getElem? hc
  have hindex : ∀ x ∈ c, ∀ y ∈ dependencies x,
      (components.findIdx fun component => y ∈ component) = j ↔ y ∈ d := by
    intro x hx y hy
    obtain ⟨e, he, hye⟩ := h.findIdx_spec (hclosed x (h.inside c hcmem x hx) y hy)
    constructor
    · intro heq
      rw [heq, hd] at he
      exact Option.some.inj he ▸ hye
    · exact fun hyd => h.getElem?_eq he hd hye hyd
  simp only [componentDependencies, mem_list, mem_ofList, mem_filter,
    mem_map, mem_flatMap, hc, Option.getD_some, decide_eq_true_eq]
  constructor
  · rintro ⟨⟨y, ⟨x, hx, hy⟩, heq⟩, hne⟩
    exact ⟨hne, x, hx, y, hy, (hindex x hx y hy).mp heq⟩
  · rintro ⟨hne, x, hx, y, hy, hyd⟩
    exact ⟨⟨y, ⟨x, hx, hy⟩, (hindex x hx y hy).mpr hyd⟩, hne⟩

theorem AreComponents.exists_of_mem_componentDependencies
    (h : AreComponents dependencies relations components)
    (hclosed : ClosedUnder relations dependencies) {i j : ℕ}
    (hj : j ∈ componentDependencies components dependencies i) :
    ∃ c d, components[i]? = some c ∧ components[j]? = some d := by
  simp only [componentDependencies, mem_list, mem_ofList, mem_filter,
    mem_map, mem_flatMap] at hj
  obtain ⟨⟨y, ⟨x, hx, hy⟩, rfl⟩, -⟩ := hj
  rcases hc : components[i]? with _ | c
  · rw [hc, Option.getD_none] at hx
    exact absurd hx (notMem_empty x)
  rw [hc, Option.getD_some] at hx
  obtain ⟨d, hd, -⟩ :=
    h.findIdx_spec (hclosed x (h.inside c (mem_of_getElem? hc) x hx) y hy)
  exact ⟨c, d, rfl, hd⟩

open Classical in
/-- The other components that a component leads to. -/
noncomputable def componentsBelow (dependencies : RelationId → SortedSet RelationId)
    (components : List (SortedSet RelationId)) (i : ℕ) : Finset ℕ :=
  (Finset.range components.length).filter fun j => j ≠ i ∧
    ∃ c d, components[i]? = some c ∧ components[j]? = some d ∧
      ∃ x ∈ c, ∃ y ∈ d, Leads dependencies x y

theorem mem_componentsBelow {i j : ℕ} : j ∈ componentsBelow dependencies components i ↔
    j ≠ i ∧ ∃ c d, components[i]? = some c ∧ components[j]? = some d ∧
      ∃ x ∈ c, ∃ y ∈ d, Leads dependencies x y := by
  simp only [componentsBelow, Finset.mem_filter, Finset.mem_range]
  refine and_iff_right_of_imp fun ⟨_, _, _, _, hd, _⟩ => ?_
  exact (List.getElem?_eq_some_iff.mp hd).1

/-- **Dependencies between components descend**: a dependency leads to fewer components. -/
theorem AreComponents.card_componentsBelow_lt (h : AreComponents dependencies relations components)
    (hclosed : ClosedUnder relations dependencies) {i j : ℕ}
    (hj : j ∈ componentDependencies components dependencies i) :
    (componentsBelow dependencies components j).card <
      (componentsBelow dependencies components i).card := by
  obtain ⟨c, d, hc, hd⟩ := h.exists_of_mem_componentDependencies hclosed hj
  obtain ⟨hne, x, hx, y, hy, hyd⟩ := (h.mem_componentDependencies hclosed hc hd).mp hj
  have hxy : Leads dependencies x y := Relation.ReflTransGen.single hy
  have hcmem := mem_of_getElem? hc
  have hdmem := mem_of_getElem? hd
  have hsub : componentsBelow dependencies components j ⊆
      componentsBelow dependencies components i := by
    intro k hk
    obtain ⟨hkj, d', e, hd', he, v, hv, w, hw, hvw⟩ := mem_componentsBelow.mp hk
    obtain rfl := Option.some.inj (hd.symm.trans hd')
    have hyv := ((h.classes d hdmem y hyd v (h.inside d hdmem v hv)).mp hv).1
    have hxw : Leads dependencies x w := (hxy.trans hyv).trans hvw
    refine mem_componentsBelow.mpr ⟨fun hki => hne ?_, c, e, hc, he, x, hx, w, hw, hxw⟩
    -- a way back would make the two components one
    obtain rfl := Option.some.inj (hc.symm.trans (hki ▸ he))
    have hwx := ((h.classes c hcmem x hx w (h.inside c hcmem w hw)).mp hw).2
    have hyc := (h.classes c hcmem x hx y (h.inside d hdmem y hyd)).mpr
      ⟨hxy, (hyv.trans hvw).trans hwx⟩
    exact h.getElem?_eq hd hc hyd hyc
  exact Finset.card_lt_card (hsub.ssubset_of_mem_notMem
    (mem_componentsBelow.mpr ⟨hne, c, d, hc, hd, x, hx, y, hyd, hxy⟩)
    fun hself => (mem_componentsBelow.mp hself).1 rfl)

theorem card_componentsBelow_lt_length {i : ℕ} (hi : i < components.length) :
    (componentsBelow dependencies components i).card < components.length := by
  have hsub : componentsBelow dependencies components i ⊆
      (Finset.range components.length).erase i := by
    intro j hj
    obtain ⟨hne, _, _, _, hd, _⟩ := mem_componentsBelow.mp hj
    exact Finset.mem_erase.mpr ⟨hne, Finset.mem_range.mpr (List.getElem?_eq_some_iff.mp hd).1⟩
  have hcard := Finset.card_le_card hsub
  rw [Finset.card_erase_of_mem (Finset.mem_range.mpr hi), Finset.card_range] at hcard
  omega

/-- **A component depends on no later one**, and the order has them all. -/
theorem orderRelationComponents_spec (h : AreComponents dependencies relations components)
    (hclosed : ClosedUnder relations dependencies) :
    (∀ c, c ∈ orderRelationComponents components dependencies ↔ c ∈ components) ∧
      (orderRelationComponents components dependencies).Pairwise fun c d =>
        ∀ x ∈ c, ∀ y ∈ dependencies x, y ∉ d := by
  have hexists : ∀ i j, j ∈ componentDependencies components dependencies i →
      j < components.length := fun i j hj => by
    obtain ⟨_, _, _, hd⟩ := h.exists_of_mem_componentDependencies hclosed hj
    exact (List.getElem?_eq_some_iff.mp hd).1
  obtain ⟨hgood, hall⟩ := Search.visit_all
    (fun i => i < components.length)
    (fun i => (componentsBelow dependencies components i).card)
    (fun i _ j hj => h.card_componentsBelow_lt hclosed hj) (fun i _ j hj => hexists i j hj)
    (fun i hi => card_componentsBelow_lt_length hi) (fun i hi => mem_range.mp hi)
  unfold orderRelationComponents
  dsimp only
  generalize (List.range components.length).foldl _ _ = s at hgood hall
  constructor
  · intro c
    rw [mem_filterMap]
    constructor
    · rintro ⟨i, -, hc⟩
      exact mem_of_getElem? hc
    · intro hc
      obtain ⟨i, hi, hget⟩ := getElem_of_mem hc
      exact ⟨i, hall i (mem_range.mpr hi), by rw [getElem?_eq_getElem hi, hget]⟩
  · refine pairwise_filterMap.mpr ((hgood.ordered.pairwise hgood.nodup).imp ?_)
    intro i j hij c hc d hd x hx y hy hyd
    exact hij.2 ((h.mem_componentDependencies hclosed hc hd).mpr ⟨hij.1.symm, x, hx, y, hy, hyd⟩)

end Components

/-! ## The order of evaluation -/

section Schedule

theorem mem_compileBody : ∀ {items : List RuleBodyItem} {symbols : List Symbol}
    {atom : CompiledAtom}, .atom atom ∈ (compileBody symbols items).2 →
    ∃ source, .atom source ∈ items ∧ source.relation = atom.relation ∧
      source.negated = atom.negated
  | [], _, _, h => nomatch h
  | item :: items, symbols, atom, h => by
    rcases mem_cons.mp h with hitem | hrest
    · cases item with
      | atom source =>
        obtain rfl := CompiledBodyItem.atom.inj hitem
        exact ⟨source, mem_cons_self, rfl, rfl⟩
      | guard guard => exact nomatch hitem
    · obtain ⟨source, hsource, hsame⟩ := mem_compileBody hrest
      exact ⟨source, mem_cons_of_mem item hsource, hsame⟩

/-- An atom of a compiled rule reads a relation as the rule does. -/
theorem mem_compileRule_bodyAtoms {rule : Rule} {atom : CompiledAtom}
    (h : atom ∈ (compileRule rule).bodyAtoms) :
    ∃ source ∈ rule.bodyAtoms, source.relation = atom.relation ∧ source.negated = atom.negated := by
  obtain ⟨item, hitem, hatom⟩ := mem_filterMap.mp h
  cases item with
  | guard guard => exact nomatch hatom
  | atom found =>
    obtain rfl := Option.some.inj hatom
    obtain ⟨source, hsource, hsame⟩ := mem_compileBody hitem
    exact ⟨source, mem_filterMap.mpr ⟨_, hsource, rfl⟩, hsame⟩

/-- A component when it is evaluated: what it writes, and the rules that write it. -/
structure Scheduled where
  targetRelations : SortedSet RelationId
  rules : List CompiledRule

/-- The rules of a component. -/
def CompiledStratum.componentRules (stratum : CompiledStratum) (component : CompiledScc) :
    List CompiledRule :=
  component.ruleIndices.filterMap fun index => stratum.rules[index]?

def CompiledStratum.schedule (stratum : CompiledStratum) : List Scheduled :=
  stratum.components.map fun component =>
    ⟨component.targetRelations, stratum.componentRules component⟩

/-- The order in which `evaluate_fixpoint_with_stats` evaluates the components. -/
def CompiledRuleSet.schedule (program : CompiledRuleSet) : List Scheduled :=
  program.strata.flatMap CompiledStratum.schedule

/-- Every rule of a relation was evaluated before, and none is from here on. -/
structure RuleSet.Complete (set : RuleSet) (before rest : List Scheduled) (relation : RelationId) :
    Prop where
  done : ∀ rule ∈ set.rules, rule.headRelation = relation →
    ∃ component ∈ before, compileRule rule ∈ component.rules
  closed : ∀ component ∈ rest, ∀ rule ∈ component.rules, rule.headRelation ≠ relation

/-- **What a component reads is its own, if it reads it positively, or complete.** -/
def RuleSet.Respects (set : RuleSet) (schedule : List Scheduled) : Prop :=
  ∀ before component after, schedule = before ++ component :: after →
    ∀ rule ∈ component.rules, ∀ atom ∈ rule.bodyAtoms,
      (atom.relation ∈ component.targetRelations ∧ atom.negated = false) ∨
        set.Complete before (component :: after) atom.relation

variable {set : RuleSet} {rules : List Rule}

theorem mem_componentRules {targetRelations : SortedSet RelationId} {rule : CompiledRule} :
    rule ∈ (compileStratum rules).componentRules
        (compileComponent (rules.map compileRule) targetRelations) ↔
      rule ∈ rules.map compileRule ∧ rule.headRelation ∈ targetRelations := by
  simp only [CompiledStratum.componentRules, compileComponent, mem_filterMap, mem_filter,
    mem_range, compileStratum]
  constructor
  · rintro ⟨i, ⟨-, hany⟩, hrule⟩
    rw [hrule, Option.any_some, decide_eq_true_eq] at hany
    exact ⟨mem_of_getElem? hrule, hany⟩
  · rintro ⟨hrule, hhead⟩
    obtain ⟨i, hi, rfl⟩ := getElem_of_mem hrule
    have hget := getElem?_eq_getElem hi
    exact ⟨i, ⟨hi, by rw [hget]; exact decide_eq_true hhead⟩, hget⟩

theorem mem_positiveDependencies {targetRelations : SortedSet RelationId} {x y : RelationId} :
    y ∈ positiveDependencies rules targetRelations x ↔
      y ∈ targetRelations ∧ ∃ rule ∈ rules, rule.headRelation = x ∧
        ∃ atom ∈ rule.bodyAtoms, atom.relation = y ∧ atom.negated = false := by
  simp only [positiveDependencies, mem_ofList, mem_map, mem_filter,
    mem_flatMap, Bool.and_eq_true, Bool.not_eq_true', decide_eq_true_eq]
  constructor
  · rintro ⟨atom, ⟨⟨rule, ⟨hrule, hhead⟩, hatom⟩, hneg, hmem⟩, rfl⟩
    exact ⟨hmem, rule, hrule, hhead, atom, hatom, rfl, hneg⟩
  · rintro ⟨hmem, rule, hrule, hhead, atom, hatom, rfl, hneg⟩
    exact ⟨atom, ⟨⟨rule, ⟨hrule, hhead⟩, hatom⟩, hneg, hmem⟩, rfl⟩

/-- What one component of a stratum may know of another that comes later, or of itself. -/
structure StratumOrder (rules : List Rule) (schedule : List Scheduled) : Prop where
  mem : ∀ component ∈ schedule, ∀ rule, rule ∈ component.rules ↔
    rule ∈ rules.map compileRule ∧ rule.headRelation ∈ component.targetRelations
  inside : ∀ component ∈ schedule, ∀ x ∈ component.targetRelations, x ∈ headRelations rules
  cover : ∀ x ∈ headRelations rules, ∃ component ∈ schedule, x ∈ component.targetRelations
  pairwise : schedule.Pairwise fun component later => ∀ rule ∈ rules, ∀ atom ∈ rule.bodyAtoms,
    rule.headRelation ∈ component.targetRelations → atom.negated = false →
      atom.relation ∉ later.targetRelations

/-- **The components of a stratum come in the order of their positive dependencies.** -/
theorem stratumOrder_schedule (rules : List Rule) :
    StratumOrder rules (compileStratum rules).schedule := by
  have hclosed : ClosedUnder (headRelations rules)
      (positiveDependencies rules (headRelations rules)) := fun _ _ _ hy =>
    (mem_positiveDependencies.mp hy).1
  have hcomponents := areComponents_stronglyConnectedRelations hclosed
  obtain ⟨hall, hpairwise⟩ := orderRelationComponents_spec hcomponents hclosed
  have hmem : ∀ component ∈ (compileStratum rules).schedule, ∃ targets ∈
      stronglyConnectedRelations (headRelations rules)
        (positiveDependencies rules (headRelations rules)),
      component = ⟨targets, (compileStratum rules).componentRules
        (compileComponent (rules.map compileRule) targets)⟩ := by
    intro component hcomponent
    obtain ⟨compiled, hcompiled, rfl⟩ := mem_map.mp hcomponent
    obtain ⟨targets, htargets, rfl⟩ := mem_map.mp hcompiled
    exact ⟨targets, (hall targets).mp htargets, rfl⟩
  refine ⟨fun component h rule => ?_, fun component h x hx => ?_, fun x hx => ?_, ?_⟩
  · obtain ⟨targets, -, rfl⟩ := hmem component h
    exact mem_componentRules
  · obtain ⟨targets, htargets, rfl⟩ := hmem component h
    exact hcomponents.inside targets htargets x hx
  · obtain ⟨targets, htargets, hxt⟩ := hcomponents.cover x hx
    exact ⟨_, mem_map_of_mem (mem_map_of_mem ((hall targets).mpr htargets)), hxt⟩
  · refine pairwise_map.mpr (pairwise_map.mpr (hpairwise.imp_of_mem ?_))
    intro c d hc hd hcd rule hrule atom hatom hhead hneg hlater
    have htarget := hcomponents.inside d ((hall d).mp hd) atom.relation hlater
    exact hcd rule.headRelation hhead atom.relation
      (mem_positiveDependencies.mpr ⟨htarget, rule, hrule, rfl, atom, hatom, rfl, hneg⟩) hlater

/-- The rules of one stratum. -/
def RuleSet.level (set : RuleSet) (strata : RelationId → ℕ) (k : ℕ) : List Rule :=
  set.rules.filter fun rule => strata rule.headRelation = k

theorem RuleSet.mem_level {strata : RelationId → ℕ} {k : ℕ} {rule : Rule} :
    rule ∈ set.level strata k ↔ rule ∈ set.rules ∧ strata rule.headRelation = k := by
  rw [RuleSet.level, mem_filter, decide_eq_true_eq]

theorem RuleSet.compile_eq_ok {program : CompiledRuleSet} (h : set.compile = .ok program) :
    ∃ strata, set.Stratifies strata ∧ program.schedule =
      (SortedSet.ofList (set.rules.map fun rule => strata rule.headRelation)).list.flatMap
        fun k => (compileStratum (set.level strata k)).schedule := by
  unfold RuleSet.compile RuleSet.stratifiedRules at h
  rcases hstrata : set.relationStrata with _ | strata
  · rw [hstrata] at h
    exact nomatch h
  rw [hstrata] at h
  obtain rfl := Except.ok.inj h
  refine ⟨strata, RuleSet.relationStrata_eq_ok hstrata, ?_⟩
  simp only [CompiledRuleSet.schedule, map_map, flatMap_map, Function.comp_apply]
  rfl

/-- **A relation that a rule reads lies in a lower stratum, or in its own and is not negated.** -/
theorem RuleSet.Stratifies.reads {strata : RelationId → ℕ} (h : set.Stratifies strata) {j k : ℕ}
    {rule : Rule} (hrule : rule ∈ set.level strata j) {atom : Atom} (hatom : atom ∈ rule.bodyAtoms)
    (htarget : atom.relation ∈ headRelations (set.level strata k)) :
    k < j ∨ k = j ∧ atom.negated = false := by
  obtain ⟨hin, hj⟩ := RuleSet.mem_level.mp hrule
  obtain ⟨other, hother, hhead⟩ := RuleSet.mem_headRelations.mp htarget
  obtain ⟨hotherin, hk⟩ := RuleSet.mem_level.mp hother
  have hle := h _ _ _ ⟨rule, hin, rfl, atom, hatom, rfl, rfl⟩
    (RuleSet.mem_headRelations.mpr ⟨other, hotherin, hhead⟩)
  rw [hhead] at hk
  rw [hj, hk] at hle
  cases hneg : atom.negated with
  | false =>
    have hkj : k ≤ j := (Nat.le_add_right _ _).trans hle
    exact hkj.lt_or_eq.imp_right fun h => ⟨h, rfl⟩
  | true =>
    rw [hneg] at hle
    exact Or.inl hle

/-- What the order of evaluation is built to give. -/
structure RuleSet.ScheduleOrder (set : RuleSet) (schedule : List Scheduled) : Prop where
  head : ∀ component ∈ schedule, ∀ rule ∈ component.rules,
    rule.headRelation ∈ component.targetRelations
  cover : ∀ rule ∈ set.rules, ∃ component ∈ schedule,
    compileRule rule ∈ component.rules ∧ rule.headRelation ∈ component.targetRelations
  self : ∀ component ∈ schedule, ∀ rule ∈ component.rules, ∀ atom ∈ rule.bodyAtoms,
    atom.relation ∈ component.targetRelations → atom.negated = false
  pairwise : schedule.Pairwise fun component later => ∀ rule ∈ component.rules,
    ∀ atom ∈ rule.bodyAtoms, atom.relation ∉ later.targetRelations

theorem RuleSet.scheduleOrder_of_compile {program : CompiledRuleSet}
    (h : set.compile = .ok program) : set.ScheduleOrder program.schedule := by
  obtain ⟨strata, hstrata, hschedule⟩ := RuleSet.compile_eq_ok h
  rw [hschedule]
  have horder := fun k => stratumOrder_schedule (set.level strata k)
  -- a compiled atom that reads a target of some stratum
  have hreads : ∀ j k, ∀ component ∈ (compileStratum (set.level strata j)).schedule,
      ∀ later ∈ (compileStratum (set.level strata k)).schedule, ∀ rule ∈ component.rules,
      ∀ atom ∈ rule.bodyAtoms, atom.relation ∈ later.targetRelations →
      k < j ∨ k = j ∧ atom.negated = false ∧ ∃ source ∈ set.level strata j,
        source.headRelation ∈ component.targetRelations ∧ ∃ a ∈ source.bodyAtoms,
          a.relation = atom.relation ∧ a.negated = atom.negated := by
    intro j k component hcomponent later hlater rule hrule atom hatom htarget
    obtain ⟨hmem, hhead⟩ := ((horder j).mem component hcomponent rule).mp hrule
    obtain ⟨source, hsource, rfl⟩ := mem_map.mp hmem
    obtain ⟨a, ha, hrel, hneg⟩ := mem_compileRule_bodyAtoms hatom
    have htarget' := (horder k).inside later hlater atom.relation htarget
    rw [← hrel] at htarget'
    refine (hstrata.reads hsource ha htarget').imp_right fun ⟨hkj, hpos⟩ => ?_
    exact ⟨hkj, hneg ▸ hpos, source, hsource, hhead, a, ha, hrel, hneg⟩
  refine ⟨fun component hc rule hrule => ?_, fun rule hrule => ?_,
    fun component hc rule hrule atom hatom htarget => ?_, pairwise_flatMap.mpr ⟨?_, ?_⟩⟩
  · obtain ⟨k, -, hc⟩ := mem_flatMap.mp hc
    exact (((horder k).mem component hc rule).mp hrule).2
  · have hlevel : rule ∈ set.level strata (strata rule.headRelation) :=
      RuleSet.mem_level.mpr ⟨hrule, rfl⟩
    obtain ⟨component, hc, htarget⟩ := (horder (strata rule.headRelation)).cover rule.headRelation
      (RuleSet.mem_headRelations.mpr ⟨rule, hlevel, rfl⟩)
    refine ⟨component, mem_flatMap.mpr ⟨_, ?_, hc⟩, ?_, htarget⟩
    · exact mem_ofList.mpr (mem_map_of_mem hrule)
    · exact ((horder _).mem component hc _).mpr ⟨mem_map_of_mem hlevel, htarget⟩
  · obtain ⟨k, -, hc⟩ := mem_flatMap.mp hc
    rcases hreads k k component hc component hc rule hrule atom hatom htarget with hlt | ⟨-, hpos, -⟩
    · exact absurd hlt (lt_irrefl k)
    · exact hpos
  · intro k _
    refine ((horder k).pairwise).imp_of_mem fun {component later} hc hl hkept => ?_
    intro rule hrule atom hatom htarget
    rcases hreads k k component hc later hl rule hrule atom hatom htarget with
      hlt | ⟨-, hpos, source, hsource, hhead, a, ha, hrel, hneg⟩
    · exact absurd hlt (lt_irrefl k)
    · exact hkept source hsource a ha hhead (hneg.trans hpos) (hrel ▸ htarget)
  · refine (SortedSet.sorted _).imp fun {j k} hjk => ?_
    intro component hc later hl rule hrule atom hatom htarget
    rcases hreads j k component hc later hl rule hrule atom hatom htarget with hlt | ⟨rfl, -⟩
    · exact absurd hlt (lt_asymm hjk)
    · exact absurd hjk (lt_irrefl k)

theorem RuleSet.ScheduleOrder.respects {schedule : List Scheduled} (h : set.ScheduleOrder schedule) :
    set.Respects schedule := by
  rintro before component after rfl rule hrule atom hatom
  have hc : component ∈ before ++ component :: after :=
    mem_append_right _ mem_cons_self
  by_cases htarget : atom.relation ∈ component.targetRelations
  · exact Or.inl ⟨htarget, h.self component hc rule hrule atom hatom htarget⟩
  -- what this component reads is a target of none from here on
  have hlater : ∀ later ∈ component :: after, atom.relation ∉ later.targetRelations := by
    refine forall_mem_cons.mpr ⟨htarget, fun later hlater => ?_⟩
    have hpairwise := (pairwise_append.mp h.pairwise).2.1
    exact (pairwise_cons.mp hpairwise).1 later hlater rule hrule atom hatom
  refine Or.inr ⟨fun source hsource hhead => ?_, fun later hl other hother heq => ?_⟩
  · obtain ⟨found, hfound, hmem, hin⟩ := h.cover source hsource
    rw [hhead] at hin
    exact ⟨found, (mem_append.mp hfound).resolve_right fun hl => hlater found hl hin, hmem⟩
  · exact hlater later hl (heq ▸ h.head later (mem_append_right _ hl) other hother)

theorem RuleSet.exists_compile (h : set.validateStratified = .ok ()) :
    ∃ program, set.compile = .ok program := by
  unfold RuleSet.validateStratified at h
  unfold RuleSet.compile
  rcases hrules : set.stratifiedRules with _ | strata
  · rw [hrules] at h
    exact nomatch h
  exact ⟨_, rfl⟩

/-- **The stratification check is exact**: it accepts a rule set exactly when no cycle passes through a
negated atom, and then every rule is evaluated with its relation, in an order of components in which
each reads only itself, positively, and what is complete. -/
theorem RuleSet.stratification_exact (set : RuleSet) :
    (set.validateStratified = .ok () ↔ ¬ set.NegativeCycle) ∧
    (set.validateStratified = .ok () → ∃ program, set.compile = .ok program ∧
      (∀ rule ∈ set.rules, ∃ component ∈ program.schedule,
        compileRule rule ∈ component.rules ∧ rule.headRelation ∈ component.targetRelations) ∧
      set.Respects program.schedule) := by
  refine ⟨RuleSet.validateStratified_iff, fun h => ?_⟩
  obtain ⟨program, hprogram⟩ := RuleSet.exists_compile h
  have horder := RuleSet.scheduleOrder_of_compile hprogram
  exact ⟨program, hprogram, horder.cover, horder.respects⟩

/-- `Reach(x, y) :- Link(x, y)`, `Reach(x, z) :- Reach(x, y), Link(y, z)` and
`Apart(x, y) :- Link(x, y), not Reach(y, x)`. -/
def apartRules : RuleSet :=
  let link := fun x y => (⟨⟨1, by decide⟩, [.var ⟨x⟩, .var ⟨y⟩], false⟩ : Atom)
  let reach := fun x y negated => (⟨⟨2, by decide⟩, [.var ⟨x⟩, .var ⟨y⟩], negated⟩ : Atom)
  ⟨[⟨⟨3, by decide⟩, [.var ⟨0⟩, .var ⟨1⟩], [.atom (link 0 1), .atom (reach 1 0 true)]⟩,
    ⟨⟨2, by decide⟩, [.var ⟨0⟩, .var ⟨1⟩], [.atom (link 0 1)]⟩,
    ⟨⟨2, by decide⟩, [.var ⟨0⟩, .var ⟨2⟩], [.atom (reach 0 1 false), .atom (link 1 2)]⟩]⟩

theorem RuleSet.stratification_exact_apartRules : ∃ program, apartRules.compile = .ok program ∧
    (∀ rule ∈ apartRules.rules, ∃ component ∈ program.schedule,
      compileRule rule ∈ component.rules ∧ rule.headRelation ∈ component.targetRelations) ∧
    apartRules.Respects program.schedule :=
  (RuleSet.stratification_exact apartRules).2 (by decide +kernel)

end Schedule

end Mica
