import Mica.Kernel.PositiveDelta

/-!
# Kernel/NegatedDelta — the change of the derivations of a rule with negation

A derivation of a rule with negated atoms is **active** when none of the rows that its binding names
in them is there.  The state kept for such a rule is the bindings of the positive atoms and, for
each negated atom, an index from the row a binding names to the binding; the rows of the negated
relations are kept as counts.

* `evaluateRuleFull_spec` — what a rebuild gives.
* `touched_covers` — a binding that is not looked at neither gains nor loses active derivations.
* `negated_delta_exact` — the delta is the change of the active derivations, and what is kept is what
  a rebuild gives.
-/

open SortedList List SortedMap SortedSet WeightedMap Weighted

namespace Mica

/-! ## The code -/

/-- The bindings of a negated atom by the row they name in it. -/
abbrev LeftIndex := SortedMap Tuple (SortedSet Binding)

structure NegatedRuleState where
  positiveBindings : WeightedBindings
  leftByNegativeKey : List LeftIndex

/-- `negated_binding_is_active`, over the negated atoms. -/
def negatedBindingIsActive (contains : RelationId → Tuple → Bool) (binding : Binding) :
    List CompiledAtom → Except KernelError Bool
  | [] => .ok true
  | atom :: atoms =>
    (atom.instantiate binding).bind fun tuple =>
      if contains atom.relation tuple = true then .ok false
      else negatedBindingIsActive contains binding atoms

/-- The loop of `project_active_negated_bindings`. -/
def projectActiveBindings (rule : CompiledRule) (contains : RelationId → Tuple → Bool)
    (site : DiffSite) : List (Binding × ℤ) → WeightedRows → Except KernelError WeightedRows
  | [], output => .ok output
  | (binding, difference) :: rest, output =>
    (negatedBindingIsActive contains binding rule.negatedAtoms).bind fun active =>
      if active = true then
        (rule.instantiateHead binding).bind fun tuple =>
          (checkedAccumulate site output tuple difference).bind
            (projectActiveBindings rule contains site rest)
      else projectActiveBindings rule contains site rest output

/-- `project_active_negated_bindings`. -/
def projectActiveNegatedBindings (rule : CompiledRule) (bindings : WeightedBindings)
    (contains : RelationId → Tuple → Bool) (version : ℕ) : Except KernelError WeightedRows :=
  projectActiveBindings rule contains ⟨rule.headRelation, "anti-join projection", version⟩
    bindings.map.list WeightedMap.empty

namespace LeftIndex

/-- The bindings under a key. -/
def bindingsAt (index : LeftIndex) (key : Tuple) : SortedSet Binding :=
  (index.get? key).getD SortedSet.empty

/-- File a binding under a key. -/
def add (index : LeftIndex) (key : Tuple) (binding : Binding) : LeftIndex :=
  index.insert key ((index.bindingsAt key).insert binding)

/-- Take a binding from under a key; a key without bindings goes too. -/
def remove (index : LeftIndex) (key : Tuple) (binding : Binding) : LeftIndex :=
  match index.get? key with
  | none => index
  | some bindings =>
    if (bindings.erase binding).list.isEmpty then index.erase key
    else index.insert key (bindings.erase binding)

end LeftIndex

/-- The index of one negated atom. -/
def buildLeftIndex (atom : CompiledAtom) : List Binding → LeftIndex → Except KernelError LeftIndex
  | [], index => .ok index
  | binding :: rest, index =>
    (atom.instantiate binding).bind fun key => buildLeftIndex atom rest (index.add key binding)

/-- `build_negative_left_indexes`. -/
def buildNegativeLeftIndexes (rule : CompiledRule) (bindings : WeightedBindings) :
    Except KernelError (List LeftIndex) :=
  rule.negatedAtoms.mapM fun atom => buildLeftIndex atom bindings.map.keys SortedMap.empty

/-- The loop of `evaluate_rule_full` over the positive atoms. -/
def joinAll (input : CompiledAtom → FullJoinInput) :
    List CompiledAtom → WeightedBindings → Except KernelError WeightedBindings
  | [], bindings => .ok bindings
  | atom :: atoms, bindings => (joinArranged bindings atom (input atom)).bind (joinAll input atoms)

/-- `evaluate_rule_full`. -/
def evaluateRuleFull (rule : CompiledRule) (collections : Collections) (arrangements : Arrangements)
    (version : ℕ) (context : ExecutionContext) :
    Except KernelError (WeightedRows × Option NegatedRuleState) :=
  let input atom := ⟨collections atom.relation, arrangements, none, rule.headRelation,
    version, context⟩
  (joinAll input rule.positiveAtoms (unitBinding rule.slotCount)).bind fun joined =>
    let bindings := filterGuards rule joined
    if rule.hasNegation then
      (projectActiveNegatedBindings rule bindings
        (fun relation tuple => decide (tuple ∈ collections relation)) version).bind fun contribution =>
      (buildNegativeLeftIndexes rule bindings).map fun indexes =>
        (contribution, some ⟨bindings, indexes⟩)
    else (projectRule rule bindings version).map fun contribution => (contribution, none)

/-- The counts of the rows of the negated relations. -/
abbrev NegativeKeyCounts := RelationId → Option (SortedMap Tuple ℕ)

/-- The counts of a relation, built anew. -/
def keyCounts (rows : Collection) : SortedMap Tuple ℕ :=
  ⟨rows.list.map fun t => (t, 1), pairwise_map.mpr rows.sorted⟩

/-- `refresh_negative_key_counts`. -/
def refreshNegativeKeyCounts (counts oldCounts : NegativeKeyCounts) (relation : RelationId)
    (changes : WeightedRows) : NegativeKeyCounts :=
  match oldCounts relation with
  | none => counts
  | some old =>
    Function.update counts relation (some (changes.map.list.foldl (fun next change =>
      if 0 < change.2 then next.insert change.1 1
      else if change.2 < 0 then next.erase change.1 else next) old))

/-- `right_key_is_present`. -/
def rightKeyIsPresent (counts : NegativeKeyCounts) (relation : RelationId) (tuple : Tuple) : Bool :=
  ((counts relation).bind fun counts => counts.get? tuple).any fun count => decide (0 < count)

/-- The bindings that a delta looks at. -/
def touchedBindings (rule : CompiledRule) (state : NegatedRuleState) (evaluation : DeltaEvaluation)
    (positiveDelta : WeightedBindings) : SortedSet Binding :=
  SortedSet.ofList (positiveDelta.map.keys ++
    (rule.negatedAtoms.zip state.leftByNegativeKey).flatMap fun entry =>
      (evaluation.delta entry.1.relation).map.keys.flatMap fun tuple =>
        (LeftIndex.bindingsAt entry.2 tuple).list)

/-- The loop of `evaluate_negated_rule_delta` over the touched bindings. -/
def transitionBindings (rule : CompiledRule) (old next : WeightedBindings)
    (oldCounts newCounts : NegativeKeyCounts) (version : ℕ) :
    List Binding → WeightedRows → Except KernelError WeightedRows
  | [], output => .ok output
  | binding :: rest, output =>
    (negatedBindingIsActive (rightKeyIsPresent oldCounts) binding rule.negatedAtoms).bind
      fun oldActive =>
    (negatedBindingIsActive (rightKeyIsPresent newCounts) binding rule.negatedAtoms).bind
      fun newActive =>
    let oldContribution := if oldActive = true then old.weight binding else 0
    let newContribution := if newActive = true then next.weight binding else 0
    let difference := newContribution - oldContribution
    if FitsDiff difference then
      if difference = 0 then
        transitionBindings rule old next oldCounts newCounts version rest output
      else
        (rule.instantiateHead binding).bind fun tuple =>
        (checkedAccumulate ⟨rule.headRelation, "anti-join projection", version⟩ output tuple
          difference).bind
          (transitionBindings rule old next oldCounts newCounts version rest)
    else
      .error (.differentialWeightOverflow rule.headRelation "anti-join transition" version
        newContribution oldContribution)

/-- Refile a binding in the index of a negated atom. -/
def refile (binding : Binding) (present : Bool) (entry : CompiledAtom × LeftIndex) :
    Except KernelError LeftIndex :=
  (entry.1.instantiate binding).map fun key =>
    if present = true then entry.2.add key binding else LeftIndex.remove entry.2 key binding

/-- The loop of `evaluate_negated_rule_delta` that keeps the indexes. -/
def updateLeftIndexes (rule : CompiledRule) (old next : WeightedBindings) :
    List Binding → List LeftIndex → Except KernelError (List LeftIndex)
  | [], indexes => .ok indexes
  | binding :: rest, indexes =>
    let oldPresent := decide (0 < old.weight binding)
    let newPresent := decide (0 < next.weight binding)
    if oldPresent = newPresent then updateLeftIndexes rule old next rest indexes
    else ((rule.negatedAtoms.zip indexes).mapM (refile binding newPresent)).bind
      (updateLeftIndexes rule old next rest)

/-- `evaluate_negated_rule_delta`. -/
def evaluateNegatedRuleDelta (rule : CompiledRule) (state : NegatedRuleState)
    (evaluation : DeltaEvaluation) (oldCounts newCounts : NegativeKeyCounts) :
    Except KernelError (WeightedRows × NegatedRuleState) :=
  let positiveChanged :=
    rule.positiveAtoms.any fun atom => !(evaluation.delta atom.relation).isEmpty
  (if positiveChanged = true then evaluatePositiveBindingDelta rule evaluation
    else .ok WeightedMap.empty).bind fun positiveDelta =>
  (accumulateAll ⟨rule.headRelation, "anti-join left input", evaluation.version⟩
    positiveDelta.map.list state.positiveBindings).bind fun nextBindings =>
  match nextBindings.map.list.find? fun entry => decide (entry.2 < 0) with
  | some (binding, difference) =>
    (rule.instantiateHead binding).bind fun tuple =>
      .error (.negativeDifferentialSupport rule.headRelation tuple evaluation.version difference)
  | none =>
    (transitionBindings rule state.positiveBindings nextBindings oldCounts newCounts
      evaluation.version (touchedBindings rule state evaluation positiveDelta).list
      WeightedMap.empty).bind fun output =>
    (updateLeftIndexes rule state.positiveBindings nextBindings positiveDelta.map.keys
      state.leftByNegativeKey).map fun indexes => (output, ⟨nextBindings, indexes⟩)

/-! ## The counts of the negated relations -/

theorem get?_keyCounts (rows : Collection) (t : Tuple) :
    (keyCounts rows).get? t = if t ∈ rows then some 1 else none := by
  have hmem : ∀ n, (t, n) ∈ (keyCounts rows).list ↔ t ∈ rows ∧ 1 = n := by
    intro n
    refine mem_map.trans ?_
    constructor
    · rintro ⟨t', ht, heq⟩
      obtain ⟨rfl, rfl⟩ := Prod.mk.inj heq
      exact ⟨ht, rfl⟩
    · rintro ⟨ht, rfl⟩
      exact ⟨t, ht, rfl⟩
  split_ifs with h
  · exact get?_eq_some.mpr ((hmem 1).mpr ⟨h, rfl⟩)
  · refine Option.eq_none_iff_forall_ne_some.mpr fun n hn => ?_
    exact h ((hmem n).mp (get?_eq_some.mp hn)).1

theorem rightKeyIsPresent_eq {counts : NegativeKeyCounts} {relation : RelationId}
    {rows : Collection} (h : counts relation = some (keyCounts rows)) (t : Tuple) :
    rightKeyIsPresent counts relation t = decide (t ∈ rows) := by
  rw [rightKeyIsPresent, h, Option.bind_some, get?_keyCounts]
  split_ifs with ht
  · simp [ht]
  · simp [ht]

/-- The counts after a list of changes of distinct rows. -/
theorem get?_foldl_changes (t : Tuple) : ∀ {changes : List (Tuple × ℤ)} {counts : SortedMap Tuple ℕ},
    (changes.map Prod.fst).Nodup →
      (changes.foldl (fun next change => if 0 < change.2 then next.insert change.1 1
          else if change.2 < 0 then next.erase change.1 else next) counts).get? t =
        if 0 < Weighted.entries changes t then some 1
        else if Weighted.entries changes t < 0 then none else counts.get? t
  | [], counts, _ => by simp
  | (row, d) :: changes, counts, hnodup => by
    obtain ⟨hnot, hrest⟩ := nodup_cons.mp hnodup
    rw [foldl_cons, get?_foldl_changes t hrest, entries_cons, Finsupp.add_apply,
      Finsupp.single_apply]
    by_cases hrow : row = t
    · subst hrow
      rw [entries_apply_of_notMem hnot, if_neg (lt_irrefl _), if_neg (lt_irrefl _),
        if_pos rfl, add_zero]
      split_ifs with hpos hneg
      · rw [get?_insert_self]
      · rw [get?_erase, if_pos rfl]
      · rfl
    rw [if_neg hrow, zero_add]
    split_ifs with h1 h2 h3 h4
    · rfl
    · rfl
    · exact get?_insert_of_ne (Ne.symm hrow)
    · rw [get?_erase, if_neg (Ne.symm hrow)]
    · rfl

/-- **Refreshed counts are rebuilt counts.** -/
theorem refreshNegativeKeyCounts_eq {counts oldCounts : NegativeKeyCounts} {relation : RelationId}
    {old new : Collection} {changes : WeightedRows} (h : Changes old new changes)
    (hold : oldCounts relation = some (keyCounts old)) :
    refreshNegativeKeyCounts counts oldCounts relation changes =
      Function.update counts relation (some (keyCounts new)) := by
  rw [refreshNegativeKeyCounts, hold]
  refine congrArg (fun m => Function.update counts relation (some m)) (ext_get? fun t => ?_)
  have hweight : Weighted.entries changes.map.list t = changes.weight t := changes.weights_apply t
  rw [get?_foldl_changes t changes.nodup_keys, hweight, get?_keyCounts, get?_keyCounts, h t]
  unfold Collection.presence
  by_cases ht : t ∈ old <;> by_cases ht' : t ∈ new <;> simp [ht, ht']

/-- The counts with the changes of some relations, as `advance` refreshes them. -/
def refreshAll (relations : List RelationId) (delta : RelationId → WeightedRows)
    (oldCounts : NegativeKeyCounts) : NegativeKeyCounts :=
  relations.foldl (fun counts relation =>
    refreshNegativeKeyCounts counts oldCounts relation (delta relation)) oldCounts

theorem refreshAll_eq {delta : RelationId → WeightedRows} {oldCounts : NegativeKeyCounts}
    (old : Collections) {new : Collections} {relations : List RelationId}
    (h : ∀ relation ∈ relations, Changes (old relation) (new relation) (delta relation))
    (hold : ∀ relation ∈ relations, oldCounts relation = some (keyCounts (old relation))) :
    ∀ relation ∈ relations,
      refreshAll relations delta oldCounts relation = some (keyCounts (new relation)) := by
  have hfold : ∀ (rest : List RelationId) (counts : NegativeKeyCounts), rest ⊆ relations →
      ∀ relation, relation ∈ rest ∨ counts relation = some (keyCounts (new relation)) →
        rest.foldl (fun counts relation =>
          refreshNegativeKeyCounts counts oldCounts relation (delta relation)) counts relation =
            some (keyCounts (new relation)) := by
    intro rest
    induction rest with
    | nil => exact fun counts _ relation h => h.elim (nofun) id
    | cons first rest ih =>
      intro counts hsub relation hrelation
      obtain ⟨hfirst, hrest⟩ := cons_subset.mp hsub
      rw [foldl_cons, refreshNegativeKeyCounts_eq (h first hfirst) (hold first hfirst)]
      refine ih _ hrest relation ?_
      by_cases heq : relation = first
      · right
        rw [heq, Function.update_self]
      · rw [Function.update_of_ne heq]
        exact hrelation.imp_left fun hmem => (mem_cons.mp hmem).resolve_left heq
  exact fun relation hrelation => hfold relations oldCounts (List.Subset.refl _) relation
    (.inl hrelation)

/-! ## The indexes -/

namespace LeftIndex

variable {atom : CompiledAtom} {present : Binding → Prop} {index : LeftIndex} {key : Tuple}
  {binding : Binding}

/-- **The index of some bindings**: under a key are those that name it, and no key is empty. -/
structure Exact (atom : CompiledAtom) (present : Binding → Prop) (index : LeftIndex) : Prop where
  mem_iff : ∀ key b, b ∈ index.bindingsAt key ↔ present b ∧ atom.instantiate b = .ok key
  nonempty : ∀ key bindings, index.get? key = some bindings → bindings.list ≠ []

/-- There is only one index of some bindings. -/
theorem Exact.unique {index' : LeftIndex} (h : Exact atom present index)
    (h' : Exact atom present index') : index = index' := by
  have hset : ∀ key, index.bindingsAt key = index'.bindingsAt key := fun key =>
    ext_mem fun b => (h.mem_iff key b).trans (h'.mem_iff key b).symm
  refine ext_get? fun key => ?_
  have hkey := hset key
  unfold bindingsAt at hkey
  cases hget : index.get? key with
  | none =>
    rcases hget' : index'.get? key with _ | bindings
    · rfl
    rw [hget, hget', Option.getD_none, Option.getD_some] at hkey
    exact absurd (congrArg SortedSet.list hkey).symm (h'.nonempty key bindings hget')
  | some bindings =>
    rcases hget' : index'.get? key with _ | bindings'
    · rw [hget, hget', Option.getD_none, Option.getD_some] at hkey
      exact absurd (congrArg SortedSet.list hkey) (h.nonempty key bindings hget)
    rw [hget, hget', Option.getD_some, Option.getD_some] at hkey
    exact congrArg some hkey

theorem exact_empty (atom : CompiledAtom) : Exact atom (fun _ => False) SortedMap.empty where
  mem_iff _ b := iff_of_false (notMem_empty b) fun h => h.1
  nonempty _ _ h := nomatch h

theorem Exact.add (h : Exact atom present index) (hkey : atom.instantiate binding = .ok key) :
    Exact atom (fun b => b = binding ∨ present b) (index.add key binding) where
  mem_iff key' b := by
    rw [LeftIndex.add, bindingsAt, get?_insert]
    by_cases heq : key' = key
    · rw [if_pos heq, Option.getD_some, mem_insert, h.mem_iff, heq]
      constructor
      · rintro (rfl | ⟨hb, hk⟩)
        · exact ⟨.inl rfl, hkey⟩
        · exact ⟨.inr hb, hk⟩
      · rintro ⟨rfl | hb, hk⟩
        · exact .inl rfl
        · exact .inr ⟨hb, hk⟩
    rw [if_neg heq, ← bindingsAt, h.mem_iff]
    constructor
    · exact fun hb => ⟨.inr hb.1, hb.2⟩
    · rintro ⟨rfl | hb, hk⟩
      · exact absurd (Except.ok.inj (hk.symm.trans hkey)) heq
      · exact ⟨hb, hk⟩
  nonempty key' bindings hget := by
    rw [LeftIndex.add, get?_insert] at hget
    split_ifs at hget
    · obtain rfl := Option.some.inj hget
      exact ne_nil_of_mem (mem_list.mpr (mem_insert.mpr (.inl rfl)))
    · exact h.nonempty key' bindings hget

theorem Exact.remove (h : Exact atom present index) (hkey : atom.instantiate binding = .ok key) :
    Exact atom (fun b => b ≠ binding ∧ present b) (index.remove key binding) := by
  have hat : ∀ key' b, b ∈ bindingsAt (index.remove key binding) key' ↔
      b ∈ index.bindingsAt key' ∧ ¬ (key' = key ∧ b = binding) := by
    intro key' b
    unfold LeftIndex.remove
    cases hget : index.get? key with
    | none =>
      refine (and_iff_left_of_imp fun hb => ?_).symm
      rintro ⟨rfl, -⟩
      rw [bindingsAt, hget] at hb
      exact notMem_empty b hb
    | some bindings =>
      dsimp only
      by_cases heq : key' = key
      · subst heq
        have hold : index.bindingsAt key' = bindings := by rw [bindingsAt, hget, Option.getD_some]
        have hnew : b ∈ bindings.erase binding ↔ b ∈ bindings ∧ ¬ (key' = key' ∧ b = binding) := by
          rw [mem_erase]
          tauto
        rw [hold, ← hnew]
        split_ifs with hempty
        · rw [bindingsAt, get?_erase, if_pos rfl, Option.getD_none]
          rw [List.isEmpty_iff] at hempty
          rw [← mem_list (s := bindings.erase binding), hempty]
          exact iff_of_false (notMem_empty b) not_mem_nil
        · rw [bindingsAt, get?_insert_self, Option.getD_some]
      · rw [and_iff_left fun h => heq h.1]
        split_ifs
        · rw [bindingsAt, get?_erase, if_neg heq, bindingsAt]
        · rw [bindingsAt, get?_insert_of_ne heq, bindingsAt]
  refine ⟨fun key' b => ?_, fun key' bindings hget => ?_⟩
  · rw [hat, h.mem_iff]
    constructor
    · rintro ⟨⟨hb, hk⟩, hne⟩
      exact ⟨⟨fun heq => hne ⟨Except.ok.inj (hk.symm.trans (heq ▸ hkey)), heq⟩, hb⟩, hk⟩
    · rintro ⟨⟨hne, hb⟩, hk⟩
      exact ⟨⟨hb, hk⟩, fun heq => hne heq.2⟩
  unfold LeftIndex.remove at hget
  split at hget
  · exact h.nonempty key' bindings hget
  rename_i old hold
  split_ifs at hget with hempty
  · rw [get?_erase] at hget
    split_ifs at hget
    exact h.nonempty key' bindings hget
  rw [get?_insert] at hget
  split_ifs at hget
  · obtain rfl := Option.some.inj hget
    simpa [List.isEmpty_iff] using hempty
  · exact h.nonempty key' bindings hget

end LeftIndex

/-! ## A rebuild -/

/-- Join every atom with its rows. -/
theorem joinAll_spec {input : CompiledAtom → FullJoinInput} : ∀ {atoms : List CompiledAtom}
    {slots : Set ℕ} {n : ℕ} {bindings : WeightedBindings},
      (∀ atom ∈ atoms, (input atom).Exact atom) → Aligned slots n bindings →
      ∃ out slots', joinAll input atoms bindings = .ok out ∧ Aligned slots' n out ∧
        out.weights = Weighted.chain (atoms.map fun atom => (unify atom, (input atom).rows.weights))
          bindings.weights
  | [], slots, _, bindings, _, haligned => ⟨bindings, slots, rfl, haligned, rfl⟩
  | atom :: atoms, slots, n, bindings, hinput, haligned => by
    obtain ⟨hfirst, hrest⟩ := forall_mem_cons.mp hinput
    obtain ⟨joined, hok, hweights⟩ := joinArranged_spec haligned hfirst
    have hnext := haligned.join (Collection.unitRows hfirst.length_eq)
      (hweights.trans (congrArg _ (Collection.weights_eq _).symm))
    obtain ⟨out, slots', hout, haligned', heq⟩ := joinAll_spec hrest hnext
    refine ⟨out, slots', ?_, haligned', ?_⟩
    · rwa [joinAll, hok]
    · rw [heq, hweights]
      rfl

namespace CompiledRule

/-- A row that a binding names in a negated atom is there. -/
def blocked (rule : CompiledRule) (collections : Collections) (binding : Binding) : Bool :=
  rule.negatedAtoms.any fun atom =>
    (atom.instantiate binding).toOption.any fun t => decide (t ∈ collections atom.relation)

/-- The derivations that negation lets through. -/
def activeDerivations (rule : CompiledRule) (collections : Collections) : List Binding :=
  (rule.derivations collections).filter fun b => !rule.blocked collections b

/-- **The number of active derivations of a head tuple.** -/
def activeCount (rule : CompiledRule) (collections : Collections) (head : Tuple) : ℕ :=
  (rule.activeDerivations collections).countP (rule.derives head)

theorem count_activeDerivations (rule : CompiledRule) (collections : Collections) (b : Binding) :
    (rule.activeDerivations collections).count b =
      if rule.blocked collections b = true then 0 else (rule.derivations collections).count b := by
  rw [activeDerivations]
  split_ifs with h
  · refine count_eq_zero_of_not_mem fun hmem => ?_
    simpa [h] using of_mem_filter hmem
  · exact count_filter (by simpa using h)

end CompiledRule

/-- A binding names a row in each negated atom. -/
def NamesRows (rule : CompiledRule) (binding : Binding) : Prop :=
  ∀ atom ∈ rule.negatedAtoms, ∃ key, atom.instantiate binding = .ok key

theorem negatedBindingIsActive_eq {contains : RelationId → Tuple → Bool} {collections : Collections}
    {binding : Binding} : ∀ {atoms : List CompiledAtom},
      (∀ atom ∈ atoms, ∃ key, atom.instantiate binding = .ok key) →
      (∀ atom ∈ atoms, ∀ t, contains atom.relation t = decide (t ∈ collections atom.relation)) →
      negatedBindingIsActive contains binding atoms = .ok (!atoms.any fun atom =>
        (atom.instantiate binding).toOption.any fun t => decide (t ∈ collections atom.relation))
  | [], _, _ => rfl
  | atom :: atoms, hkeys, hcontains => by
    obtain ⟨⟨key, hkey⟩, hkeys⟩ := forall_mem_cons.mp hkeys
    obtain ⟨hfirst, hcontains⟩ := forall_mem_cons.mp hcontains
    rw [negatedBindingIsActive, hkey, any_cons, hkey]
    change (if contains atom.relation key = true then Except.ok false
      else negatedBindingIsActive contains binding atoms) = _
    rw [negatedBindingIsActive_eq hkeys hcontains, hfirst key]
    by_cases hmem : key ∈ collections atom.relation
    · simp [hmem, Except.toOption]
    · simp [hmem, Except.toOption]

theorem buildLeftIndex_spec {atom : CompiledAtom} : ∀ {bindings : List Binding}
    {present : Binding → Prop} {index out : LeftIndex}, index.Exact atom present →
      buildLeftIndex atom bindings index = .ok out →
      out.Exact atom (fun b => b ∈ bindings ∨ present b) ∧
        ∀ b ∈ bindings, ∃ key, atom.instantiate b = .ok key
  | [], present, index, out, hindex, h => by
    obtain rfl := Except.ok.inj h
    refine ⟨?_, nofun⟩
    simpa using hindex
  | binding :: rest, present, index, out, hindex, h => by
    unfold buildLeftIndex at h
    rcases hkey : atom.instantiate binding with _ | key
    · rw [hkey] at h
      cases h
    rw [hkey] at h
    obtain ⟨hout, hrest⟩ := buildLeftIndex_spec (hindex.add hkey) h
    refine ⟨?_, forall_mem_cons.mpr ⟨⟨key, hkey⟩, hrest⟩⟩
    have hsame : (fun b => b ∈ rest ∨ b = binding ∨ present b) =
        fun b => b ∈ binding :: rest ∨ present b := by
      funext b
      simp only [mem_cons, eq_iff_iff]
      tauto
    rwa [hsame] at hout

theorem exists_mem_zip {α β : Type} {r : α → β → Prop} {l : List α} {m : List β}
    (h : List.Forall₂ r l m) {a : α} (ha : a ∈ l) : ∃ b, (a, b) ∈ l.zip m := by
  induction h with
  | nil => exact nomatch ha
  | cons _ _ ih =>
    rcases mem_cons.mp ha with rfl | ha
    · exact ⟨_, mem_cons_self⟩
    · obtain ⟨b, hb⟩ := ih ha
      exact ⟨b, mem_cons_of_mem _ hb⟩

/-- The indexes of the negated atoms. -/
def IndexesExact (rule : CompiledRule) (present : Binding → Prop) (indexes : List LeftIndex) : Prop :=
  List.Forall₂ (fun atom index => LeftIndex.Exact atom present index) rule.negatedAtoms indexes

variable {rule : CompiledRule}

theorem IndexesExact.unique {present : Binding → Prop}
    {indexes indexes' : List LeftIndex} (h : IndexesExact rule present indexes)
    (h' : IndexesExact rule present indexes') : indexes = indexes' := by
  unfold IndexesExact at h h'
  generalize rule.negatedAtoms = atoms at h h'
  induction h generalizing indexes' with
  | nil => exact (forall₂_nil_left_iff.mp h').symm
  | cons hfirst _ ih =>
    cases h' with
    | cons hfirst' hrest' => rw [hfirst.unique hfirst', ih hrest']

theorem buildNegativeLeftIndexes_spec {bindings : WeightedBindings}
    {indexes : List LeftIndex} (h : buildNegativeLeftIndexes rule bindings = .ok indexes) :
    IndexesExact rule (fun b => bindings.weight b ≠ 0) indexes ∧
      ∀ b, bindings.weight b ≠ 0 → NamesRows rule b := by
  have hforall := Collect.mapM_eq_ok.mp h
  have hbuilt : ∀ {atom : CompiledAtom} {index : LeftIndex},
      buildLeftIndex atom bindings.map.keys SortedMap.empty = .ok index →
        index.Exact atom (fun b => bindings.weight b ≠ 0) ∧
          ∀ b, bindings.weight b ≠ 0 → ∃ key, atom.instantiate b = .ok key := by
    intro atom index hindex
    obtain ⟨hexact, hkeys⟩ := buildLeftIndex_spec (LeftIndex.exact_empty atom) hindex
    have hsame : (fun b => b ∈ bindings.map.keys ∨ False) = fun b => bindings.weight b ≠ 0 := by
      funext b
      rw [or_false]
      exact propext mem_keys
    exact ⟨hsame ▸ hexact, fun b hb => hkeys b (mem_keys.mpr hb)⟩
  refine ⟨hforall.imp fun _ _ h => (hbuilt h).1, fun b hb atom hatom => ?_⟩
  obtain ⟨index, hindex⟩ := exists_mem_zip hforall hatom
  exact (hbuilt (forall₂_zip hforall hindex)).2 b hb

/-- The projection of the active bindings, if each is known to be active or not. -/
theorem projectActiveBindings_inv {contains : RelationId → Tuple → Bool}
    {site : DiffSite} (active : Binding → Bool) : ∀ {es : List (Binding × ℤ)}
    {output out : WeightedRows},
      (∀ e ∈ es, negatedBindingIsActive contains e.1 rule.negatedAtoms = .ok (active e.1)) →
      projectActiveBindings rule contains site es output = .ok out →
      (∀ e ∈ es, active e.1 = true → rule.instantiateHead e.1 = .ok (rule.headOf e.1)) ∧
        accumulateAll site ((es.filter fun e => active e.1).map fun e => (rule.headOf e.1, e.2))
          output = .ok out
  | [], output, out, _, h => ⟨fun _ h => absurd h not_mem_nil, h⟩
  | (b, d) :: es, output, out, hactive, h => by
    obtain ⟨hfirst, hrest⟩ := forall_mem_cons.mp hactive
    rw [projectActiveBindings, hfirst] at h
    change (if active b = true then _ else _) = Except.ok out at h
    by_cases hb : active b = true
    · rw [if_pos hb] at h
      rcases hhead : rule.instantiateHead b with _ | tuple
      · rw [hhead] at h
        cases h
      have hof : rule.headOf b = tuple := by
        rw [CompiledRule.headOf, hhead]
        rfl
      rw [hhead] at h
      change (checkedAccumulate site output tuple d).bind _ = Except.ok out at h
      rw [filter_cons_of_pos (by exact hb), map_cons, accumulateAll, hof]
      rcases hsum : checkedAccumulate site output tuple d with _ | middle
      · rw [hsum] at h
        cases h
      rw [hsum] at h
      obtain ⟨hheads, hout⟩ := projectActiveBindings_inv active hrest h
      exact ⟨forall_mem_cons.mpr ⟨fun _ => hof ▸ hhead, hheads⟩, hout⟩
    · rw [if_neg hb] at h
      obtain ⟨hheads, hout⟩ := projectActiveBindings_inv active hrest h
      rw [filter_cons_of_neg (by exact hb)]
      exact ⟨forall_mem_cons.mpr ⟨fun h => absurd h hb, hheads⟩, hout⟩

/-- **What a rebuild of a rule with negation keeps.** -/
structure Rebuilt (rule : CompiledRule) (collections : Collections) (state : NegatedRuleState) :
    Prop where
  weight_eq : ∀ b, state.positiveBindings.weight b = (rule.derivations collections).count b
  unit : ∀ b, |state.positiveBindings.weight b| ≤ 1
  names : ∀ b ∈ rule.derivations collections, NamesRows rule b
  indexes : IndexesExact rule (· ∈ rule.derivations collections) state.leftByNegativeKey
  heads : ∀ b ∈ rule.activeDerivations collections, rule.instantiateHead b = .ok (rule.headOf b)
  fits : rule.CountsFit (rule.activeDerivations collections)

section Rebuild

variable {rule : CompiledRule} {collections : Collections} {arrangements : Arrangements} {version : ℕ}
  {context : ExecutionContext} {rows : WeightedRows} {state : NegatedRuleState}

/-- The rows that a rebuild reads. -/
def rebuildInput (rule : CompiledRule) (collections : Collections) (arrangements : Arrangements)
    (version : ℕ) (context : ExecutionContext) (atom : CompiledAtom) : FullJoinInput :=
  ⟨collections atom.relation, arrangements, none, rule.headRelation, version, context⟩

theorem weight_filterGuards {joined : WeightedBindings}
    (h : joined.weights = bodyChain rule.positiveAtoms collections rule.slotCount) (b : Binding) :
    (filterGuards rule joined).weight b = (rule.derivations collections).count b := by
  rw [rule.count_derivations, filterGuards, weight_retain, ← weights_apply, h]

/-- **A rebuild** that returns keeps the bindings and their indexes, and its rows have the numbers
of active derivations as weights. -/
theorem evaluateRuleFull_spec
    (hinput : ∀ atom ∈ rule.positiveAtoms,
      (rebuildInput rule collections arrangements version context atom).Exact atom)
    (h : evaluateRuleFull rule collections arrangements version context = .ok (rows, some state)) :
    Rebuilt rule collections state ∧ ∀ head, rows.weight head = rule.activeCount collections head := by
  obtain ⟨joined, slots, hjoined, haligned, hweights⟩ :=
    joinAll_spec hinput (aligned_unitBinding rule.slotCount)
  rw [weights_unitBinding] at hweights
  have hcount : ∀ b, (filterGuards rule joined).weight b = (rule.derivations collections).count b :=
    weight_filterGuards (hweights.trans (bodyChain_eq _ _ _).symm)
  unfold evaluateRuleFull at h
  change (joinAll (rebuildInput rule collections arrangements version context) rule.positiveAtoms
    (unitBinding rule.slotCount)).bind _ = _ at h
  rw [hjoined] at h
  change (if rule.hasNegation = true then _ else _) = Except.ok (rows, some state) at h
  split_ifs at h with hnegation
  · set bindings := filterGuards rule joined with hbindings
    rcases hproject : projectActiveNegatedBindings rule bindings
        (fun relation tuple => decide (tuple ∈ collections relation)) version with _ | contribution
    · rw [hproject] at h
      cases h
    rw [hproject] at h
    rcases hindexes : buildNegativeLeftIndexes rule bindings with _ | indexes
    · rw [hindexes] at h
      cases h
    rw [hindexes] at h
    obtain ⟨rfl, hstate⟩ := Prod.mk.inj (Except.ok.inj h)
    obtain rfl := Option.some.inj hstate
    obtain ⟨hexact, hnames⟩ := buildNegativeLeftIndexes_spec hindexes
    have hpresent : (fun b => bindings.weight b ≠ 0) = (· ∈ rule.derivations collections) := by
      funext b
      rw [hcount b]
      simp [count_eq_zero]
    have hmem : ∀ b, b ∈ rule.derivations collections → bindings.weight b ≠ 0 := fun b hb =>
      (congrFun hpresent b).mpr hb
    have hactive : ∀ e ∈ bindings.map.list, negatedBindingIsActive
        (fun relation tuple => decide (tuple ∈ collections relation)) e.1 rule.negatedAtoms =
          .ok (!rule.blocked collections e.1) := by
      intro e he
      obtain ⟨hweight, hne⟩ := mem_list.mp he
      exact negatedBindingIsActive_eq (hnames e.1 (hweight ▸ hne)) fun _ _ _ => rfl
    obtain ⟨hheads, hsum⟩ := projectActiveBindings_inv
      (fun b => !rule.blocked collections b) hactive hproject
    set active := bindings.retain fun b => !rule.blocked collections b with hactiveBindings
    have hlist : ∀ e ∈ active.map.list, rule.instantiateHead e.1 = .ok (rule.headOf e.1) := by
      intro e he
      exact hheads e (mem_of_mem_filter he) (mem_filter.mp he).2
    have hactiveCount : ∀ b, active.weight b =
        ((rule.activeDerivations collections).count b : ℤ) - ([] : List Binding).count b := by
      intro b
      rw [hactiveBindings, weight_retain, hcount b, rule.count_activeDerivations]
      by_cases hb : rule.blocked collections b = true <;> simp [hb]
    have hunit : ∀ b, |bindings.weight b| ≤ 1 := by
      intro b
      rw [hbindings, filterGuards, weight_retain]
      split_ifs
      · exact haligned.unit b
      · norm_num
    obtain ⟨hsum, hfits⟩ := accumulateAll_inv hsum
    have hrows : ∀ head, contribution.weight head = rule.activeCount collections head := by
      intro head
      have hweight := rule.headWeight_eq hactiveCount head
      rw [countP_nil, Nat.cast_zero, sub_zero] at hweight
      rw [hsum, ← weights_apply, weights_addAll,
        weights_empty, zero_add]
      exact (rule.entries_headOf hlist head).trans hweight
    refine ⟨⟨hcount, hunit, fun b hb => hnames b (hmem b hb), hpresent ▸ hexact, fun b hb => ?_,
      fun head => ?_⟩, hrows⟩
    · have hb' := mem_filter.mp hb
      have he := mem_list.mpr ⟨rfl, hmem b hb'.1⟩
      exact hheads _ he hb'.2
    · rw [← CompiledRule.activeCount, ← hrows head]
      refine (hfits (fun e he => ?_) (fun k => ?_) head).2
      swap
      · rw [weight_empty]
        decide
      obtain ⟨e, hkept, rfl⟩ := mem_map.mp he
      have he' := mem_list.mp (mem_of_mem_filter hkept)
      refine fitsDiff_of_abs_le (LE.le.trans ?_ (by decide : (1 : ℤ) ≤ maxDiff))
      rw [← he'.1]
      exact hunit e.1
  · exact absurd h (by cases projectRule rule (filterGuards rule joined) version <;> simp [Except.map])

/-- The variables of the head and of the negated atoms stand in positive atoms. -/
def CompiledRule.Safe (rule : CompiledRule) : Prop :=
  rule.HeadSafe ∧ ∀ atom ∈ rule.negatedAtoms, ∀ term ∈ atom.terms, ∀ slot ∈ term.slot?,
    slot ∈ bodySlots rule.positiveAtoms

theorem CompiledRule.Safe.namesRows (hsafe : rule.Safe) {b : Binding}
    (hb : ∀ slot, b.Bound slot ↔ slot ∈ bodySlots rule.positiveAtoms) : NamesRows rule b :=
  fun atom hatom => instantiateTerms_ok _ fun term hterm slot hslot =>
    (hb slot).mpr (hsafe.2 atom hatom term hterm slot hslot)

theorem projectActiveBindings_eq {contains : RelationId → Tuple → Bool} {site : DiffSite}
    (active : Binding → Bool) : ∀ {es : List (Binding × ℤ)} {output : WeightedRows},
      (∀ e ∈ es, negatedBindingIsActive contains e.1 rule.negatedAtoms = .ok (active e.1)) →
      (∀ e ∈ es, rule.instantiateHead e.1 = .ok (rule.headOf e.1)) →
      projectActiveBindings rule contains site es output = accumulateAll site
        ((es.filter fun e => active e.1).map fun e => (rule.headOf e.1, e.2)) output
  | [], _, _, _ => rfl
  | (b, d) :: es, output, hactive, hheads => by
    obtain ⟨hfirst, hactive⟩ := forall_mem_cons.mp hactive
    obtain ⟨hhead, hheads⟩ := forall_mem_cons.mp hheads
    rw [projectActiveBindings, hfirst]
    change (if active b = true then _ else _) = _
    by_cases hb : active b = true
    · rw [if_pos hb, hhead, filter_cons_of_pos (by exact hb), map_cons, accumulateAll]
      exact congrArg _ (funext fun output => projectActiveBindings_eq active hactive hheads)
    · rw [if_neg hb, filter_cons_of_neg (by exact hb)]
      exact projectActiveBindings_eq active hactive hheads

theorem buildLeftIndex_ok {atom : CompiledAtom} : ∀ {bindings : List Binding} (index : LeftIndex),
    (∀ b ∈ bindings, ∃ key, atom.instantiate b = .ok key) →
      ∃ out, buildLeftIndex atom bindings index = .ok out
  | [], index, _ => ⟨index, rfl⟩
  | b :: bindings, index, h => by
    obtain ⟨⟨key, hkey⟩, hrest⟩ := forall_mem_cons.mp h
    rw [buildLeftIndex, hkey]
    exact buildLeftIndex_ok _ hrest

/-- **A safe rule whose counts fit can be rebuilt.** -/
theorem evaluateRuleFull_ok
    (hinput : ∀ atom ∈ rule.positiveAtoms,
      (rebuildInput rule collections arrangements version context atom).Exact atom)
    (hnegation : rule.hasNegation = true) (hsafe : rule.Safe)
    (hfits : rule.CountsFit (rule.activeDerivations collections)) :
    ∃ rows state,
      evaluateRuleFull rule collections arrangements version context = .ok (rows, some state) := by
  obtain ⟨joined, slots, hjoined, haligned, hweights⟩ :=
    joinAll_spec hinput (aligned_unitBinding rule.slotCount)
  rw [weights_unitBinding] at hweights
  have hcount : ∀ b, (filterGuards rule joined).weight b = (rule.derivations collections).count b :=
    weight_filterGuards (hweights.trans (bodyChain_eq _ _ _).symm)
  set bindings := filterGuards rule joined with hbindings
  have hbound : ∀ b, bindings.weight b ≠ 0 →
      ∀ slot, b.Bound slot ↔ slot ∈ bodySlots rule.positiveAtoms := by
    intro b hb
    refine CompiledRule.bound_of_mem_derivations (fun atom hatom => (hinput atom hatom).length_eq)
      (by_contra fun hnot => hb ?_)
    rw [hcount b, count_eq_zero_of_not_mem hnot, Nat.cast_zero]
  have hentry : ∀ e ∈ bindings.map.list, bindings.weight e.1 ≠ 0 := fun e he =>
    (mem_list.mp he).1 ▸ (mem_list.mp he).2
  have hactive : ∀ e ∈ bindings.map.list, negatedBindingIsActive
      (fun relation tuple => decide (tuple ∈ collections relation)) e.1 rule.negatedAtoms =
        .ok (!rule.blocked collections e.1) := fun e he =>
    negatedBindingIsActive_eq (hsafe.namesRows (hbound e.1 (hentry e he))) fun _ _ _ => rfl
  have hheads : ∀ e ∈ bindings.map.list, rule.instantiateHead e.1 = .ok (rule.headOf e.1) :=
    fun e he => rule.instantiateHead_eq hsafe.1 (hbound e.1 (hentry e he))
  set active := bindings.retain fun b => !rule.blocked collections b with hactiveBindings
  have hes : ∀ e ∈ active.map.list, e.2 =
      ((rule.activeDerivations collections).count e.1 : ℤ) - ([] : List Binding).count e.1 := by
    intro e he
    rw [← (mem_list.mp he).1, hactiveBindings, weight_retain, hcount,
      rule.count_activeDerivations]
    by_cases hb : rule.blocked collections e.1 = true <;> simp [hb]
  obtain ⟨rows, hrows, -⟩ := rule.accumulateAll_headOf
    ⟨rule.headRelation, "anti-join projection", version⟩ active.nodup_keys hes
    (fun e he => hheads e (mem_of_mem_filter he)) hfits
    (fun head => by rw [countP_nil]; decide)
  obtain ⟨indexes, hindexes⟩ : ∃ indexes, buildNegativeLeftIndexes rule bindings = .ok indexes :=
    Collect.mapM_ok fun atom hatom => buildLeftIndex_ok _ fun b hb =>
      hsafe.namesRows (hbound b (mem_keys.mp hb)) atom hatom
  refine ⟨rows, ⟨bindings, indexes⟩, ?_⟩
  unfold evaluateRuleFull
  change (joinAll (rebuildInput rule collections arrangements version context) rule.positiveAtoms
    (unitBinding rule.slotCount)).bind _ = _
  rw [hjoined]
  change (if rule.hasNegation = true then _ else _) = Except.ok (rows, some _)
  rw [if_pos hnegation]
  have hproject : projectActiveNegatedBindings rule bindings
      (fun relation tuple => decide (tuple ∈ collections relation)) version = .ok rows :=
    (projectActiveBindings_eq (fun b => !rule.blocked collections b) hactive hheads).trans hrows
  rw [← hbindings, hproject]
  change (buildNegativeLeftIndexes rule bindings).map _ = _
  rw [hindexes]
  rfl

end Rebuild

/-! ## The delta -/

/-- Relations that did not change leave nothing to join. -/
theorem DeltaEvaluation.joinPivots_of_isEmpty {evaluation : DeltaEvaluation}
    {atoms : List CompiledAtom} : ∀ {pivots : List (CompiledAtom × ℕ)} (output : WeightedBindings),
      (∀ pivot ∈ pivots, (evaluation.delta pivot.1.relation).isEmpty = true) →
      evaluation.joinPivots rule atoms pivots output = .ok output
  | [], _, _ => rfl
  | (atom, p) :: pivots, output, h => by
    obtain ⟨hfirst, hrest⟩ := forall_mem_cons.mp h
    rw [DeltaEvaluation.joinPivots, if_pos hfirst]
    exact DeltaEvaluation.joinPivots_of_isEmpty output hrest

section Delta

variable {rule : CompiledRule} {evaluation : DeltaEvaluation} {state state' : NegatedRuleState}
  {oldCounts newCounts : NegativeKeyCounts} {positiveDelta : WeightedBindings}

/-- The change of the positive bindings, computed or known to be none. -/
theorem positiveDelta_spec (h : evaluation.Consistent rule.positiveAtoms) :
    ∃ delta, (if (rule.positiveAtoms.any fun atom =>
        !(evaluation.delta atom.relation).isEmpty) = true then
        evaluatePositiveBindingDelta rule evaluation else .ok WeightedMap.empty) = .ok delta ∧
      ∀ b, delta.weight b = ((rule.derivations evaluation.newCollections).count b : ℤ) -
        (rule.derivations evaluation.oldCollections).count b := by
  obtain ⟨delta, hok, hdelta⟩ := evaluatePositiveBindingDelta_spec h
  refine ⟨delta, ?_, hdelta⟩
  split_ifs with hchanged
  · exact hok
  rw [← hok]
  refine (DeltaEvaluation.joinPivots_of_isEmpty _ fun pivot hpivot => ?_).symm
  have hmem := (evaluation.orderedAtoms_perm rule.positiveAtoms).subset
    (fst_mem_of_mem_zipIdx hpivot)
  by_contra hne
  exact hchanged (any_eq_true.mpr ⟨_, hmem, by simpa using hne⟩)

/-- The change of the active derivations of a binding. -/
def activeChange (rule : CompiledRule) (old new : Collections) (b : Binding) : ℤ :=
  ((rule.activeDerivations new).count b : ℤ) - (rule.activeDerivations old).count b

/-- A change of the collections with what is kept before and after it. -/
structure NegatedChange (rule : CompiledRule) (evaluation : DeltaEvaluation)
    (state state' : NegatedRuleState) : Prop where
  old : Rebuilt rule evaluation.oldCollections state
  new : Rebuilt rule evaluation.newCollections state'
  changes : ∀ atom ∈ rule.negatedAtoms, Changes (evaluation.oldCollections atom.relation)
    (evaluation.newCollections atom.relation) (evaluation.delta atom.relation)

/-- The touched bindings are bindings of derivations. -/
theorem mem_derivations_of_touched (h : NegatedChange rule evaluation state state')
    (hdelta : ∀ b, positiveDelta.weight b =
      ((rule.derivations evaluation.newCollections).count b : ℤ) -
        (rule.derivations evaluation.oldCollections).count b) {b : Binding}
    (hb : b ∈ touchedBindings rule state evaluation positiveDelta) :
    b ∈ rule.derivations evaluation.oldCollections ∨
      b ∈ rule.derivations evaluation.newCollections := by
  rcases mem_append.mp (mem_ofList.mp hb) with hb | hb
  · by_contra hnot
    rw [not_or] at hnot
    refine mem_keys.mp hb ?_
    rw [hdelta b, count_eq_zero_of_not_mem hnot.1, count_eq_zero_of_not_mem hnot.2,
      sub_self]
  · obtain ⟨⟨atom, index⟩, hentry, hb⟩ := mem_flatMap.mp hb
    obtain ⟨key, -, hb⟩ := mem_flatMap.mp hb
    have hexact := forall₂_zip h.old.indexes hentry
    exact .inl ((hexact.mem_iff key b).mp (mem_list.mp hb)).1

theorem blocked_iff {collections : Collections} {b : Binding} :
    rule.blocked collections b = true ↔ ∃ atom ∈ rule.negatedAtoms, ∃ t,
      atom.instantiate b = .ok t ∧ t ∈ collections atom.relation := by
  rw [CompiledRule.blocked, any_eq_true]
  refine exists_congr fun atom => and_congr_right fun _ => ?_
  cases atom.instantiate b with
  | error e => simp [Except.toOption]
  | ok t => simp [Except.toOption]

/-- **A binding that is not touched keeps its active derivations.** -/
theorem touched_covers (h : NegatedChange rule evaluation state state')
    (hdelta : ∀ b, positiveDelta.weight b =
      ((rule.derivations evaluation.newCollections).count b : ℤ) -
        (rule.derivations evaluation.oldCollections).count b) {b : Binding}
    (hb : b ∉ touchedBindings rule state evaluation positiveDelta) :
    activeChange rule evaluation.oldCollections evaluation.newCollections b = 0 := by
  rw [touchedBindings, mem_ofList, mem_append, not_or] at hb
  obtain ⟨hkey, hleft⟩ := hb
  have hsame : ((rule.derivations evaluation.newCollections).count b : ℤ) =
      (rule.derivations evaluation.oldCollections).count b := by
    rw [← sub_eq_zero, ← hdelta b]
    exact not_not.mp fun hne => hkey (mem_keys.mpr hne)
  rw [activeChange, rule.count_activeDerivations, rule.count_activeDerivations]
  by_cases hold : b ∈ rule.derivations evaluation.oldCollections
  · -- none of the rows that the binding names has changed
    have hrows : ∀ atom ∈ rule.negatedAtoms, ∀ t, atom.instantiate b = .ok t →
        (t ∈ evaluation.newCollections atom.relation ↔
          t ∈ evaluation.oldCollections atom.relation) := by
      intro atom hatom t ht
      obtain ⟨index, hentry⟩ := exists_mem_zip h.old.indexes hatom
      have hfiled : b ∈ LeftIndex.bindingsAt index t :=
        ((forall₂_zip h.old.indexes hentry).mem_iff t b).mpr ⟨hold, ht⟩
      have hunchanged : (evaluation.delta atom.relation).weight t = 0 := by
        by_contra hne
        exact hleft (mem_flatMap.mpr ⟨_, hentry, mem_flatMap.mpr
          ⟨t, mem_keys.mpr hne, mem_list.mpr hfiled⟩⟩)
      rw [(h.changes atom hatom).mem_iff t, hunchanged]
      simp
    have hblocked : rule.blocked evaluation.newCollections b =
        rule.blocked evaluation.oldCollections b := by
      refine Bool.eq_iff_iff.mpr (blocked_iff.trans (Iff.trans ?_ blocked_iff.symm))
      exact exists_congr fun atom => and_congr_right fun hatom => exists_congr fun t =>
        and_congr_right fun ht => hrows atom hatom t ht
    rw [hblocked]
    split_ifs
    · exact sub_self _
    · rw [hsame, sub_self]
  · have hzero := count_eq_zero_of_not_mem hold
    rw [hzero, Nat.cast_zero, Nat.cast_eq_zero] at hsame
    rw [hzero, hsame]
    simp

/-- The loop over bindings adds up the changes of their active derivations. -/
theorem transitionBindings_eq (h : NegatedChange rule evaluation state state')
    (hold : ∀ atom ∈ rule.negatedAtoms,
      oldCounts atom.relation = some (keyCounts (evaluation.oldCollections atom.relation)))
    (hnew : ∀ atom ∈ rule.negatedAtoms,
      newCounts atom.relation = some (keyCounts (evaluation.newCollections atom.relation)))
    (version : ℕ) : ∀ {bs : List Binding} (output : WeightedRows),
      (∀ b ∈ bs, b ∈ rule.derivations evaluation.oldCollections ∨
        b ∈ rule.derivations evaluation.newCollections) →
      transitionBindings rule state.positiveBindings state'.positiveBindings oldCounts newCounts
          version bs output =
        accumulateAll ⟨rule.headRelation, "anti-join projection", version⟩
          (((bs.map fun b =>
              (b, activeChange rule evaluation.oldCollections evaluation.newCollections b)).filter
            fun e => e.2 ≠ 0).map fun e => (rule.headOf e.1, e.2)) output
  | [], _, _ => rfl
  | b :: bs, output, hbs => by
    obtain ⟨hb, hrest⟩ := forall_mem_cons.mp hbs
    have hnames : NamesRows rule b := hb.elim (h.old.names b) (h.new.names b)
    have holdActive : negatedBindingIsActive (rightKeyIsPresent oldCounts) b rule.negatedAtoms =
        .ok (!rule.blocked evaluation.oldCollections b) :=
      negatedBindingIsActive_eq hnames fun atom hatom t => rightKeyIsPresent_eq (hold atom hatom) t
    have hnewActive : negatedBindingIsActive (rightKeyIsPresent newCounts) b rule.negatedAtoms =
        .ok (!rule.blocked evaluation.newCollections b) :=
      negatedBindingIsActive_eq hnames fun atom hatom t => rightKeyIsPresent_eq (hnew atom hatom) t
    have hcontribution : ∀ {collections : Collections} {kept : NegatedRuleState},
        Rebuilt rule collections kept →
        (if (!rule.blocked collections b) = true then kept.positiveBindings.weight b else 0) =
          ((rule.activeDerivations collections).count b : ℤ) := by
      intro collections kept hkept
      rw [hkept.weight_eq, rule.count_activeDerivations]
      by_cases hblocked : rule.blocked collections b = true <;> simp [hblocked]
    have hbound : ∀ {collections : Collections} {kept : NegatedRuleState},
        Rebuilt rule collections kept → ((rule.activeDerivations collections).count b : ℤ) ≤ 1 := by
      intro collections kept hkept
      have hunit := hkept.unit b
      rw [← hcontribution hkept]
      split_ifs
      · exact (le_abs_self _).trans hunit
      · exact zero_le_one
    set difference := activeChange rule evaluation.oldCollections evaluation.newCollections b
      with hdifference
    have hfits : FitsDiff difference := by
      have := hbound h.old
      have := hbound h.new
      rw [hdifference, activeChange]
      unfold FitsDiff maxDiff
      omega
    rw [transitionBindings, holdActive, hnewActive]
    simp only [Except.bind, hcontribution h.old, hcontribution h.new]
    rw [← activeChange, ← hdifference, if_pos hfits, map_cons, ← hdifference]
    by_cases hzero : difference = 0
    · rw [if_pos hzero, filter_cons_of_neg (by simpa using hzero)]
      exact transitionBindings_eq h hold hnew version output hrest
    have hactive : b ∈ rule.activeDerivations evaluation.oldCollections ∨
        b ∈ rule.activeDerivations evaluation.newCollections := by
      by_contra hnot
      rw [not_or] at hnot
      refine hzero ?_
      rw [hdifference, activeChange, count_eq_zero_of_not_mem hnot.1,
        count_eq_zero_of_not_mem hnot.2, sub_self]
    have hhead := hactive.elim (h.old.heads b) (h.new.heads b)
    rw [if_neg hzero, hhead, filter_cons_of_pos (by simpa using hzero), map_cons,
      accumulateAll]
    exact congrArg _ (funext fun output => transitionBindings_eq h hold hnew version output hrest)

/-- **The touched bindings make up the change of the active derivations.** -/
theorem transitionBindings_spec (h : NegatedChange rule evaluation state state')
    (hdelta : ∀ b, positiveDelta.weight b =
      ((rule.derivations evaluation.newCollections).count b : ℤ) -
        (rule.derivations evaluation.oldCollections).count b)
    (hold : ∀ atom ∈ rule.negatedAtoms,
      oldCounts atom.relation = some (keyCounts (evaluation.oldCollections atom.relation)))
    (hnew : ∀ atom ∈ rule.negatedAtoms,
      newCounts atom.relation = some (keyCounts (evaluation.newCollections atom.relation)))
    (version : ℕ) :
    ∃ out, transitionBindings rule state.positiveBindings state'.positiveBindings oldCounts newCounts
        version (touchedBindings rule state evaluation positiveDelta).list WeightedMap.empty =
        .ok out ∧
      ∀ head, out.weight head = (rule.activeCount evaluation.newCollections head : ℤ) -
        rule.activeCount evaluation.oldCollections head := by
  set touched := touchedBindings rule state evaluation positiveDelta with htouched
  set change := activeChange rule evaluation.oldCollections evaluation.newCollections with hchange
  set es := (touched.list.map fun b => (b, change b)).filter fun e => e.2 ≠ 0 with hes
  have hnodup : (es.map Prod.fst).Nodup := by
    have hall : ((touched.list.map fun b => (b, change b)).map Prod.fst).Nodup := by
      rw [map_map]
      exact (map_id _).symm ▸ touched.sorted.imp ne_of_lt
    exact (filter_sublist.map Prod.fst).nodup hall
  have hmem : ∀ e ∈ es, e.2 = change e.1 ∧ e.2 ≠ 0 := by
    intro e he
    obtain ⟨hlist, hne⟩ := mem_filter.mp he
    obtain ⟨b, -, rfl⟩ := mem_map.mp hlist
    exact ⟨rfl, by simpa using hne⟩
  have hheads : ∀ e ∈ es, rule.instantiateHead e.1 = .ok (rule.headOf e.1) := by
    intro e he
    obtain ⟨heq, hne⟩ := hmem e he
    have hactive : e.1 ∈ rule.activeDerivations evaluation.oldCollections ∨
        e.1 ∈ rule.activeDerivations evaluation.newCollections := by
      by_contra hnot
      rw [not_or] at hnot
      refine hne ?_
      rw [heq, hchange, activeChange, count_eq_zero_of_not_mem hnot.1,
        count_eq_zero_of_not_mem hnot.2, sub_self]
    exact hactive.elim (h.old.heads e.1) (h.new.heads e.1)
  obtain ⟨out, hok, hout⟩ := rule.accumulateAll_headOf
    ⟨rule.headRelation, "anti-join projection", version⟩ hnodup (fun e he => (hmem e he).1) hheads
    h.new.fits h.old.fits
  refine ⟨out, ?_, fun head => ?_⟩
  · rwa [transitionBindings_eq h hold hnew version _ fun b hb =>
      mem_derivations_of_touched h hdelta (mem_list.mp hb)]
  have hentries : Weighted.entries es = Weighted.indicator
      (rule.activeDerivations evaluation.newCollections) -
        Weighted.indicator (rule.activeDerivations evaluation.oldCollections) := by
    ext b
    rw [Finsupp.sub_apply, indicator_apply, indicator_apply]
    change _ = change b
    by_cases hb : b ∈ touched ∧ change b ≠ 0
    · exact entries_apply_of_nodup hnodup (mem_filter.mpr
        ⟨mem_map.mpr ⟨b, mem_list.mpr hb.1, rfl⟩, by simpa using hb.2⟩)
    rw [entries_apply_of_notMem]
    · by_cases ht : b ∈ touched
      · exact (not_not.mp fun hne => hb ⟨ht, hne⟩).symm
      · exact (touched_covers h hdelta ht).symm
    intro hmap
    obtain ⟨e, he, rfl⟩ := mem_map.mp hmap
    obtain ⟨hlist, hne⟩ := mem_filter.mp he
    obtain ⟨b, hbt, rfl⟩ := mem_map.mp hlist
    exact hb ⟨mem_list.mp hbt, by simpa using hne⟩
  rw [hout, ← total_entries, hentries, map_sub, total_indicator,
    total_indicator]
  rfl

/-- Refiling a binding in every index. -/
theorem refile_spec {present : Binding → Prop} {indexes : List LeftIndex}
    (hindexes : IndexesExact rule present indexes) {b : Binding} (hnames : NamesRows rule b)
    (now : Bool) :
    ∃ out, (rule.negatedAtoms.zip indexes).mapM (refile b now) = .ok out ∧
      IndexesExact rule (fun c => if c = b then now = true else present c) out := by
  unfold IndexesExact NamesRows at *
  generalize rule.negatedAtoms = atoms at *
  induction hindexes with
  | nil => exact ⟨[], rfl, .nil⟩
  | @cons atom index atoms indexes hfirst _ ih =>
    obtain ⟨⟨key, hkey⟩, hrest⟩ := forall_mem_cons.mp hnames
    obtain ⟨out, hok, hout⟩ := ih hrest
    have hrefiled : refile b now (atom, index) =
        .ok (if now = true then index.add key b else index.remove key b) := by
      rw [refile, hkey]
      rfl
    refine ⟨(if now = true then index.add key b else index.remove key b) :: out,
      Collect.mapM_eq_ok.mpr (.cons hrefiled (Collect.mapM_eq_ok.mp hok)), .cons ?_ hout⟩
    cases now with
    | true =>
      have hsame : (fun c => c = b ∨ present c) = fun c =>
        if c = b then true = true else present c := by
        funext c
        by_cases hc : c = b <;> simp [hc]
      exact hsame ▸ hfirst.add hkey
    | false =>
      have hsame : (fun c => c ≠ b ∧ present c) =
          fun c => if c = b then false = true else present c := by
        funext c
        by_cases hc : c = b <;> simp [hc]
      exact hsame ▸ hfirst.remove hkey

/-- The loop that keeps the indexes refiles the bindings that come or go. -/
theorem updateLeftIndexes_spec {old : WeightedBindings} (next : WeightedBindings) :
    ∀ {bs : List Binding} {present : Binding → Prop} {indexes : List LeftIndex}, bs.Nodup →
      (∀ b ∈ bs, NamesRows rule b) → (∀ b ∈ bs, present b ↔ 0 < old.weight b) →
      IndexesExact rule present indexes →
      ∃ out, updateLeftIndexes rule old next bs indexes = .ok out ∧
        IndexesExact rule (fun c => if c ∈ bs then 0 < next.weight c else present c) out
  | [], present, indexes, _, _, _, hindexes => ⟨indexes, rfl, by simpa using hindexes⟩
  | b :: bs, present, indexes, hnodup, hnames, hpresent, hindexes => by
    obtain ⟨hnot, hnodup⟩ := nodup_cons.mp hnodup
    obtain ⟨hname, hnames⟩ := forall_mem_cons.mp hnames
    obtain ⟨hfirst, hpresent⟩ := forall_mem_cons.mp hpresent
    rw [updateLeftIndexes]
    by_cases hsame : decide (0 < old.weight b) = decide (0 < next.weight b)
    · rw [if_pos hsame]
      obtain ⟨out, hok, hout⟩ := updateLeftIndexes_spec next hnodup hnames hpresent hindexes
      refine ⟨out, hok, ?_⟩
      have heq : (fun c => if c ∈ bs then 0 < next.weight c else present c) =
          fun c => if c ∈ b :: bs then 0 < next.weight c else present c := by
        funext c
        by_cases hc : c = b
        · rw [hc, if_neg hnot, if_pos mem_cons_self, propext hfirst]
          exact propext (decide_eq_decide.mp hsame)
        · simp only [mem_cons, hc, false_or]
      exact heq ▸ hout
    · rw [if_neg hsame]
      obtain ⟨middle, hok, hmiddle⟩ := refile_spec hindexes hname (decide (0 < next.weight b))
      have hpresent' : ∀ c ∈ bs,
          (if c = b then decide (0 < next.weight b) = true else present c) ↔ 0 < old.weight c := by
        intro c hc
        have hne : c ≠ b := fun heq => hnot (heq ▸ hc)
        rw [if_neg hne]
        exact hpresent c hc
      obtain ⟨out, hok', hout⟩ := updateLeftIndexes_spec next hnodup hnames hpresent' hmiddle
      refine ⟨out, ?_, ?_⟩
      · rwa [hok]
      have heq : (fun c => if c ∈ bs then 0 < next.weight c
          else if c = b then decide (0 < next.weight b) = true else present c) =
          fun c => if c ∈ b :: bs then 0 < next.weight c else present c := by
        funext c
        by_cases hc : c = b
        · rw [hc, if_neg hnot, if_pos rfl, if_pos mem_cons_self, decide_eq_true_eq]
        · simp only [mem_cons, hc, false_or, if_false]
      exact heq ▸ hout

/-- **Negated delta evaluation is exact.**  The delta of every head tuple is its active derivations
after the change less those before it, and what is left for the next change, the counts and the
state with its indexes, is what a rebuild on the new rows gives. -/
theorem negated_delta_exact (rule : CompiledRule) (evaluation : DeltaEvaluation)
    (oldCounts : NegativeKeyCounts) (state state' : NegatedRuleState) (oldRows newRows : WeightedRows)
    (version : ℕ) (hconsistent : evaluation.Consistent rule.positiveAtoms)
    (hchanges : ∀ atom ∈ rule.negatedAtoms, Changes (evaluation.oldCollections atom.relation)
      (evaluation.newCollections atom.relation) (evaluation.delta atom.relation))
    (hcounts : ∀ atom ∈ rule.negatedAtoms,
      oldCounts atom.relation = some (keyCounts (evaluation.oldCollections atom.relation)))
    (hold : evaluateRuleFull rule evaluation.oldCollections (fun _ => none) version .serial =
      .ok (oldRows, some state))
    (hnew : evaluateRuleFull rule evaluation.newCollections (fun _ => none) version .serial =
      .ok (newRows, some state')) :
    let newCounts :=
      refreshAll (rule.negatedAtoms.map CompiledAtom.relation) evaluation.delta oldCounts
    (∀ atom ∈ rule.negatedAtoms,
      newCounts atom.relation = some (keyCounts (evaluation.newCollections atom.relation))) ∧
    ∃ delta, evaluateNegatedRuleDelta rule state evaluation oldCounts newCounts =
        .ok (delta, state') ∧
      ∀ head, delta.weight head = (rule.activeCount evaluation.newCollections head : ℤ) -
        rule.activeCount evaluation.oldCollections head := by
  intro newCounts
  have hnewCounts : ∀ atom ∈ rule.negatedAtoms,
      newCounts atom.relation = some (keyCounts (evaluation.newCollections atom.relation)) := by
    intro atom hatom
    refine refreshAll_eq evaluation.oldCollections (fun relation hrelation => ?_)
      (fun relation hrelation => ?_) atom.relation (mem_map.mpr ⟨atom, hatom, rfl⟩)
    · obtain ⟨atom, hatom, rfl⟩ := mem_map.mp hrelation
      exact hchanges atom hatom
    · obtain ⟨atom, hatom, rfl⟩ := mem_map.mp hrelation
      exact hcounts atom hatom
  refine ⟨hnewCounts, ?_⟩
  have hserial : ∀ (collections : Collections) (atom : CompiledAtom),
      (∀ t ∈ collections atom.relation, t.length = atom.terms.length) →
        (rebuildInput rule collections (fun _ => none) version .serial atom).Exact atom :=
    fun collections atom hlength => ⟨hlength, nofun, nofun,
      ExecutionContext.serial_correct⟩
  have hbefore := (evaluateRuleFull_spec (fun atom hatom => hserial _ atom
    (hconsistent.old atom hatom).length_eq) hold).1
  have hafter := (evaluateRuleFull_spec (fun atom hatom => hserial _ atom
    (hconsistent.new atom hatom).length_eq) hnew).1
  have hchange : NegatedChange rule evaluation state state' := ⟨hbefore, hafter, hchanges⟩
  obtain ⟨positiveDelta, hpositive, hdelta⟩ := positiveDelta_spec hconsistent
  obtain ⟨out, hout, hweights⟩ := transitionBindings_spec hchange hdelta hcounts hnewCounts
    evaluation.version
  -- the bindings of the positive atoms after the change
  have hsum : ∀ b, state.positiveBindings.weight b + positiveDelta.weight b =
      state'.positiveBindings.weight b := by
    intro b
    rw [hbefore.weight_eq, hafter.weight_eq, hdelta b]
    ring
  have hnext : accumulateAll ⟨rule.headRelation, "anti-join left input", evaluation.version⟩
      positiveDelta.map.list state.positiveBindings = .ok state'.positiveBindings := by
    rw [accumulateAll_ok_of_nodup positiveDelta.nodup_keys fun e he => ?_]
    · refine congrArg Except.ok (ext_weights fun b => ?_)
      rw [← hsum b, ← weights_apply, weights_addAll, Finsupp.add_apply,
        weights_apply, ← weights_apply positiveDelta]
      rfl
    · rw [← (mem_list.mp he).1, hsum]
      exact fitsDiff_of_abs_le ((hafter.unit e.1).trans (by decide))
  have hnonneg : state'.positiveBindings.map.list.find? (fun entry => decide (entry.2 < 0)) =
      none := by
    refine find?_eq_none.mpr fun e he => ?_
    rw [← (mem_list.mp he).1, hafter.weight_eq]
    simp
  -- the indexes after the change
  have hpresent : ∀ {collections : Collections} {kept : NegatedRuleState},
      Rebuilt rule collections kept → ∀ b, b ∈ rule.derivations collections ↔
        0 < kept.positiveBindings.weight b := by
    intro collections kept hkept b
    rw [hkept.weight_eq, Nat.cast_pos, count_pos_iff]
  have hkeys : ∀ b ∈ positiveDelta.map.keys, NamesRows rule b := by
    intro b hb
    have htouched : b ∈ touchedBindings rule state evaluation positiveDelta :=
      mem_ofList.mpr (mem_append_left _ hb)
    exact (mem_derivations_of_touched hchange hdelta htouched).elim (hbefore.names b)
      (hafter.names b)
  obtain ⟨indexes, hindexes, hexact⟩ := updateLeftIndexes_spec state'.positiveBindings
    (positiveDelta.map.pairwise_keys.imp ne_of_lt) hkeys (fun b _ => hpresent hbefore b)
    hbefore.indexes
  have hsame : (fun c => if c ∈ positiveDelta.map.keys then 0 < state'.positiveBindings.weight c
      else c ∈ rule.derivations evaluation.oldCollections) =
      (· ∈ rule.derivations evaluation.newCollections) := by
    funext c
    split_ifs with hc
    · exact propext (hpresent hafter c).symm
    · have hzero : positiveDelta.weight c = 0 := not_not.mp (mt mem_keys.mpr hc)
      rw [propext (hpresent hafter c), propext (hpresent hbefore c), ← hsum c, hzero, add_zero]
  have hindexesEq : indexes = state'.leftByNegativeKey := (hsame ▸ hexact).unique hafter.indexes
  refine ⟨out, ?_, hweights⟩
  unfold evaluateNegatedRuleDelta
  dsimp only
  rw [hpositive]
  change (accumulateAll _ positiveDelta.map.list state.positiveBindings).bind _ = _
  rw [hnext]
  change (match state'.positiveBindings.map.list.find? (fun entry => decide (entry.2 < 0)) with
    | some (binding, difference) => _ | none => _) = _
  rw [hnonneg]
  change (transitionBindings _ _ _ _ _ _ _ _).bind _ = _
  rw [hout]
  change (updateLeftIndexes _ _ _ _ _).map _ = _
  rw [hindexes, hindexesEq]
  rfl

end Delta

/-- The values of one relation that are not in another. -/
def withoutRule : CompiledRule :=
  compileRule ⟨.ofByte 3, [.var ⟨0⟩],
    [.atom ⟨.ofByte 1, [.var ⟨0⟩], false⟩, .atom ⟨.ofByte 2, [.var ⟨0⟩], true⟩]⟩

/-- Both relations have the first value; then one gains the second and the other loses the first. -/
def withoutRows (after : Bool) : Collections := fun relation =>
  if relation = .ofByte 1 then
    SortedSet.ofList (if after then [[.bool false], [.bool true]] else [[.bool true]])
  else SortedSet.ofList (if after then [] else [[.bool true]])

/-- Both values appear: one was blocked, the other is new. -/
theorem negated_delta_exact_without :
    ∃ state state' delta, evaluateNegatedRuleDelta withoutRule state
        (DeltaEvaluation.rebuilt (withoutRows false) (withoutRows true) ⟨3, by decide⟩ 1)
        (fun relation => some (keyCounts (withoutRows false relation)))
        (refreshAll (withoutRule.negatedAtoms.map CompiledAtom.relation)
          (DeltaEvaluation.rebuilt (withoutRows false) (withoutRows true) ⟨3, by decide⟩ 1).delta
          fun relation => some (keyCounts (withoutRows false relation))) = .ok (delta, state') ∧
      delta.weight [.bool true] = 1 ∧ delta.weight [.bool false] = 1 := by
  have hlength : ∀ after, ∀ atom ∈ withoutRule.positiveAtoms, ∀ t ∈ withoutRows after atom.relation,
      t.length = atom.terms.length := by
    intro after atom hatom t ht
    have hone : atom.terms.length = 1 := by
      have hall : ∀ a ∈ withoutRule.positiveAtoms, a.terms.length = 1 := by decide
      exact hall atom hatom
    unfold withoutRows at ht
    split_ifs at ht <;> simp at ht <;> grind
  have hinput : ∀ after, ∀ atom ∈ withoutRule.positiveAtoms, (rebuildInput withoutRule
      (withoutRows after) (fun _ => none) 1 .serial atom).Exact atom := fun after atom hatom =>
    ⟨hlength after atom hatom, nofun, nofun,
      ExecutionContext.serial_correct⟩
  have hslot : (0 : ℕ) ∈ bodySlots withoutRule.positiveAtoms :=
    ⟨⟨⟨1, by decide⟩, [.var ⟨0⟩ 0], false⟩, by decide, by decide⟩
  have hsafe : withoutRule.Safe := by
    refine ⟨fun term hterm slot hmem => ?_, fun atom hatom term hterm slot hmem => ?_⟩
    · have hzero : ∀ term ∈ withoutRule.headTerms, term.slot? = some 0 := by decide
      rw [hzero term hterm] at hmem
      exact Option.mem_some.mp hmem ▸ hslot
    · have hzero : ∀ atom ∈ withoutRule.negatedAtoms, ∀ term ∈ atom.terms, term.slot? = some 0 := by
        decide
      rw [hzero atom hatom term hterm] at hmem
      exact Option.mem_some.mp hmem ▸ hslot
  have hfits : ∀ after, withoutRule.CountsFit (withoutRule.activeDerivations (withoutRows after)) := by
    intro after head
    have hshort : (withoutRule.activeDerivations (withoutRows after)).length ≤ 2 := by
      cases after <;> decide +kernel
    have hcount := (countP_le_length (p := withoutRule.derives head)).trans hshort
    unfold maxDiff
    omega
  obtain ⟨oldRows, state, hold⟩ := evaluateRuleFull_ok (hinput false) (by decide) hsafe (hfits false)
  obtain ⟨newRows, state', hnew⟩ := evaluateRuleFull_ok (hinput true) (by decide) hsafe (hfits true)
  obtain ⟨-, delta, hdelta, hweight⟩ := negated_delta_exact withoutRule
    (DeltaEvaluation.rebuilt (withoutRows false) (withoutRows true) ⟨3, by decide⟩ 1)
    (fun relation => some (keyCounts (withoutRows false relation))) state state' oldRows newRows 1
    (DeltaEvaluation.consistent_rebuilt (hlength false) (hlength true) _ _)
    (fun atom _ => changes_setDifferenceChanges _ _) (fun _ _ => rfl) hold hnew
  refine ⟨state, state', delta, hdelta, (hweight _).trans ?_, (hweight _).trans ?_⟩
  · decide +kernel
  · decide +kernel

end Mica
