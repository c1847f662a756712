import Mica.Kernel.RuleInference

/-!
# Kernel/RecursiveDelta — delete and rederive

A recursive component is maintained in three phases.  **Overdelete** removes the rows that were lost
below the component and, round after round, every derived tuple that loses a derivation by it.
**Seed** finds what the rules derive from the remaining rows, from all of them or, when nothing was
overdeleted, from the changes alone.  **Settle** moves the tuples found into the rows and looks for
more through them, until none is found.

Here is the code, and what one rule contributes to a round (`ruleCandidates_spec`).
-/

open SortedList List SortedSet WeightedMap

namespace Mica

/-! ## The code -/

/-- A recursive component: its rules are for its targets, and negate relations below it. -/
structure MaintainedComponent where
  targets : List RelationId
  rules : List CompiledRule
  heads : ∀ rule ∈ rules, rule.headRelation ∈ targets
  stratified : ∀ rule ∈ rules, ∀ atom ∈ rule.negatedAtoms, atom.relation ∉ targets

namespace MaintainedComponent

/-- The relations of the positive atoms. -/
def positiveRelations (component : MaintainedComponent) : List RelationId :=
  component.rules.flatMap fun rule => rule.positiveAtoms.map CompiledAtom.relation

/-- The relations of the negated atoms. -/
def negatedRelations (component : MaintainedComponent) : List RelationId :=
  component.rules.flatMap fun rule => rule.negatedAtoms.map CompiledAtom.relation

end MaintainedComponent

structure RecursiveAdvance where
  currentCollections : Collections
  currentSupport : RelationId → WeightedRows
  currentArrangements : Arrangements
  currentCounts : NegativeKeyCounts
  extensional : Collections
  factChanges : RelationId → List FactChange
  collections : Collections
  derivedSupport : RelationId → WeightedRows
  arrangements : Arrangements
  relationDeltas : RelationId → Option WeightedRows
  negativeKeyCounts : NegativeKeyCounts
  version : ℕ
  context : ExecutionContext

/-- What `advance_recursive_component` leaves. -/
structure RecursiveOutcome where
  collections : Collections
  derivedSupport : RelationId → WeightedRows
  arrangements : Arrangements
  relationDeltas : RelationId → Option WeightedRows
  negativeKeyCounts : NegativeKeyCounts

/-- `positive_rows`. -/
def positiveRows (support : WeightedRows) : Collection :=
  SortedSet.ofList ((support.map.list.filter fun entry => decide (0 < entry.2)).map Prod.fst)

/-- Rows that all have one difference. -/
def signedRows (d : ℤ) (hd : d ≠ 0) (rows : Collection) : WeightedRows :=
  setRows d hd rows.list WeightedMap.empty

/-- The differences of sets of rows; a relation without rows has no entry. -/
def rowDeltas (d : ℤ) (hd : d ≠ 0) (rows : Collections) (relation : RelationId) :
    Option WeightedRows :=
  if (rows relation).list.isEmpty then none else some (signedRows d hd (rows relation))

/-- `BTreeSet::extend`. -/
def extendRows (rows more : Collection) : Collection :=
  more.list.foldl (fun rows t => rows.insert t) rows

/-- Insert a row into one of several sets. -/
def insertRow (rows : Collections) (relation : RelationId) (t : Tuple) : Collections :=
  Function.update rows relation ((rows relation).insert t)

/-- `update_arrangements`, for all relations; a relation without changes is left alone. -/
def updateArrangements (arrangements : Arrangements) (changes : RelationId → WeightedRows) :
    Arrangements :=
  fun spec => (arrangements spec).map fun arrangement => arrangement.apply (changes spec.relation)

/-- The loop of `filter_active_negated_bindings`.  The bindings are distinct, so an insert adds. -/
def filterActiveBindings (contains : RelationId → Tuple → Bool) (atoms : List CompiledAtom) :
    List (Binding × ℤ) → WeightedBindings → Except KernelError WeightedBindings
  | [], active => .ok active
  | (binding, difference) :: rest, active =>
    (negatedBindingIsActive contains binding atoms).bind fun isActive =>
      if isActive = true then filterActiveBindings contains atoms rest (active.add binding difference)
      else filterActiveBindings contains atoms rest active

/-- `filter_active_negated_bindings`. -/
def filterActiveNegatedBindings (rule : CompiledRule) (bindings : WeightedBindings)
    (collections : Collections) : Except KernelError WeightedBindings :=
  if rule.hasNegation = true then
    filterActiveBindings (fun relation tuple => decide (tuple ∈ collections relation))
      rule.negatedAtoms bindings.map.list WeightedMap.empty
  else .ok bindings

/-- What a rule derives from changes, with the rows that negation is read from. -/
def ruleCandidates (rule : CompiledRule) (evaluation : DeltaEvaluation) (negated : Collections) :
    Except KernelError WeightedRows :=
  (evaluatePositiveBindingDelta rule evaluation).bind fun bindings =>
    (filterActiveNegatedBindings rule bindings negated).bind fun bindings =>
      projectRule rule bindings evaluation.version

/-! ### Overdelete -/

/-- The state of the loop of `overdelete_recursive_derivations`. -/
structure OverdeleteState where
  collections : Collections
  arrangements : Arrangements
  overdeleted : Collections
  frontier : Collections

/-- One candidate: it is overdeleted if it was lost, derived before and not overdeleted yet, and it
is in front if it is not a stored fact. -/
def overdeleteCandidate (relation : RelationId) (oldDerived extensional : Collections)
    (sets : Collections × Collections) (candidate : Tuple × ℤ) : Collections × Collections :=
  if 0 ≤ candidate.2 ∨ candidate.1 ∉ oldDerived relation ∨ candidate.1 ∈ sets.1 relation then sets
  else
    (insertRow sets.1 relation candidate.1,
      if candidate.1 ∈ extensional relation then sets.2
      else insertRow sets.2 relation candidate.1)

/-- The loop over the rules. -/
def overdeleteRules (oldDerived extensional : Collections)
    (candidates : CompiledRule → Except KernelError WeightedRows) :
    List CompiledRule → Collections × Collections → Except KernelError (Collections × Collections)
  | [], sets => .ok sets
  | rule :: rules, sets =>
    (candidates rule).bind fun rows =>
      overdeleteRules oldDerived extensional candidates rules
        (rows.map.list.foldl (overdeleteCandidate rule.headRelation oldDerived extensional) sets)

namespace RecursiveAdvance

/-- The changes of a relation; a relation without an entry did not change. -/
def delta (advance : RecursiveAdvance) (relation : RelationId) : WeightedRows :=
  (advance.relationDeltas relation).getD WeightedMap.empty

/-- The tuples that were derived before. -/
def oldDerived (advance : RecursiveAdvance) : Collections := fun relation =>
  positiveRows (advance.currentSupport relation)

/-- The evaluation of a rule in a round of overdeletion. -/
def overdeleteEvaluation (advance : RecursiveAdvance) (s : OverdeleteState) (next : Collections)
    (rule : CompiledRule) : DeltaEvaluation where
  oldCollections := s.collections
  newCollections := next
  relationDeltas := rowDeltas (-1) minus_one_ne_zero s.frontier
  oldArrangements := s.arrangements
  newArrangements := updateArrangements s.arrangements fun relation =>
    signedRows (-1) minus_one_ne_zero (s.frontier relation)
  oldTraces := none
  target := rule.headRelation
  version := advance.version
  context := advance.context

/-- A round of `overdelete_recursive_derivations`. -/
def overdeleteStep (advance : RecursiveAdvance) (component : MaintainedComponent)
    (s : OverdeleteState) : Except KernelError OverdeleteState :=
  let next : Collections := fun relation =>
    (s.collections relation).filter fun t => decide (t ∉ s.frontier relation)
  (overdeleteRules advance.oldDerived advance.extensional
    (fun rule => ruleCandidates rule (advance.overdeleteEvaluation s next rule) s.collections)
    component.rules (s.overdeleted, fun _ => SortedSet.empty)).map fun sets =>
      { collections := next
        arrangements := updateArrangements s.arrangements fun relation =>
          signedRows (-1) minus_one_ne_zero (s.frontier relation)
        overdeleted := sets.1
        frontier := sets.2 }

/-- The rows that were lost below the component. -/
def retractions (advance : RecursiveAdvance) (component : MaintainedComponent) : Collections :=
  fun relation =>
    if relation ∈ component.positiveRelations then
      SortedSet.ofList (((advance.delta relation).map.list.filter fun entry =>
        decide (entry.2 < 0)).map Prod.fst)
    else SortedSet.empty

/-- Whether a frontier has rows. -/
def busy (component : MaintainedComponent) (frontier : Collections) : Bool :=
  (component.positiveRelations ++ component.targets).any fun relation =>
    !(frontier relation).list.isEmpty

/-- `overdelete_recursive_derivations`. -/
def overdelete (advance : RecursiveAdvance) (component : MaintainedComponent) (fuel : ℕ) :
    Option (Except KernelError OverdeleteState) :=
  loopWhile (fun s => busy component s.frontier) (advance.overdeleteStep component) fuel
    { collections := advance.currentCollections
      arrangements := advance.currentArrangements
      overdeleted := fun _ => SortedSet.empty
      frontier := advance.retractions component }

end RecursiveAdvance

/-! ### Seed and settle -/

/-- The tuples that a rule adds to a frontier. -/
def addCandidates (relation : RelationId) (derived : Collections) :
    List (Tuple × ℤ) → Collections → Collections
  | [], frontier => frontier
  | (tuple, difference) :: rest, frontier =>
    if 0 < difference ∧ tuple ∉ derived relation then
      addCandidates relation derived rest (insertRow frontier relation tuple)
    else addCandidates relation derived rest frontier

/-- The loop over the rules. -/
def gatherCandidates (derived : Collections)
    (candidates : CompiledRule → Except KernelError WeightedRows) :
    List CompiledRule → Collections → Except KernelError Collections
  | [], frontier => .ok frontier
  | rule :: rules, frontier =>
    (candidates rule).bind fun rows =>
      gatherCandidates derived candidates rules
        (addCandidates rule.headRelation derived rows.map.list frontier)

/-- `recursive_full_candidates`. -/
def recursiveFullCandidates (component : MaintainedComponent) (collections : Collections)
    (arrangements : Arrangements) (derived : Collections) (version : ℕ)
    (context : ExecutionContext) : Except KernelError Collections :=
  gatherCandidates derived
    (fun rule => (evaluateRuleFull rule collections arrangements version context).map Prod.fst)
    component.rules fun _ => SortedSet.empty

/-- `recursive_delta_candidates`. -/
def recursiveDeltaCandidates (component : MaintainedComponent) (sources : DeltaEvaluation)
    (derived : Collections) : Except KernelError Collections :=
  gatherCandidates derived
    (fun rule => ruleCandidates rule { sources with target := rule.headRelation }
      sources.newCollections)
    component.rules fun _ => SortedSet.empty

/-- The state of the loop of `advance_recursive_component`. -/
structure SettleState where
  settled : Collections
  arrangements : Arrangements
  derived : Collections
  frontier : Collections

namespace RecursiveAdvance

/-- The evaluation of a round: the frontier moves into the settled rows. -/
def settleEvaluation (advance : RecursiveAdvance) (component : MaintainedComponent)
    (s : SettleState) : DeltaEvaluation where
  oldCollections := s.settled
  newCollections := fun relation => extendRows (s.settled relation) (s.frontier relation)
  relationDeltas := rowDeltas 1 Int.one_ne_zero s.frontier
  oldArrangements := s.arrangements
  newArrangements := updateArrangements s.arrangements fun relation =>
    signedRows 1 Int.one_ne_zero (s.frontier relation)
  oldTraces := none
  target := component.targets.headD ⟨0, by decide⟩
  version := advance.version
  context := advance.context

/-- A round of `advance_recursive_component`. -/
def settleStep (advance : RecursiveAdvance) (component : MaintainedComponent) (s : SettleState) :
    Except KernelError SettleState :=
  let derived : Collections := fun relation => extendRows (s.derived relation) (s.frontier relation)
  (recursiveDeltaCandidates component (advance.settleEvaluation component s) derived).map
    fun frontier =>
      { settled := fun relation => extendRows (s.settled relation) (s.frontier relation)
        arrangements := updateArrangements s.arrangements fun relation =>
          signedRows 1 Int.one_ne_zero (s.frontier relation)
        derived := derived
        frontier := frontier }

/-- The derived tuples that remain. -/
def remaining (advance : RecursiveAdvance) (component : MaintainedComponent)
    (overdeleted : Collections) : Collections := fun relation =>
  if relation ∈ component.targets then
    (advance.oldDerived relation).filter fun t => decide (t ∉ overdeleted relation)
  else SortedSet.empty

/-- The rows that remain. -/
def remainingRows (advance : RecursiveAdvance) (component : MaintainedComponent)
    (overdeleted : Collections) : Collections := fun relation =>
  if relation ∈ component.targets then
    if (advance.remaining component overdeleted relation).list.isEmpty then
      advance.extensional relation
    else (advance.collections relation).filter fun t =>
      decide (¬ (t ∈ overdeleted relation ∧ t ∉ advance.extensional relation))
  else advance.collections relation

/-- The arrangements of the targets, brought from the old rows to some rows; those of the other
relations are left alone. -/
def targetArrangements (advance : RecursiveAdvance) (component : MaintainedComponent)
    (rows : Collections) : Arrangements := fun spec =>
  if spec.relation ∈ component.targets then
    (((advance.currentArrangements spec).orElse fun _ => advance.arrangements spec)).map
      fun arrangement => arrangement.apply
        (setDifferenceChanges (advance.currentCollections spec.relation) (rows spec.relation))
  else advance.arrangements spec

/-- `collection_differences`, over the positive relations. -/
def seedDeltas (advance : RecursiveAdvance) (component : MaintainedComponent) (rows : Collections)
    (relation : RelationId) : Option WeightedRows :=
  if relation ∈ component.positiveRelations then
    let changes := setDifferenceChanges (advance.currentCollections relation) (rows relation)
    if changes.isEmpty then none else some changes
  else none

/-- The evaluation of the seed from the changes. -/
def seedEvaluation (advance : RecursiveAdvance) (component : MaintainedComponent)
    (rows : Collections) : DeltaEvaluation where
  oldCollections := advance.currentCollections
  newCollections := rows
  relationDeltas := advance.seedDeltas component rows
  oldArrangements := advance.currentArrangements
  newArrangements := advance.targetArrangements component rows
  oldTraces := none
  target := component.targets.headD ⟨0, by decide⟩
  version := advance.version
  context := advance.context

/-- A fact of a target was retracted. -/
def targetSeedRetracted (advance : RecursiveAdvance) (component : MaintainedComponent) : Bool :=
  component.targets.any fun target =>
    (advance.factChanges target).any fun change => decide (change.kind = .retract)

/-- A negated relation gained a row. -/
def negativeBecamePresent (advance : RecursiveAdvance) (component : MaintainedComponent) : Bool :=
  component.negatedRelations.any fun relation =>
    (advance.delta relation).map.list.any fun entry => decide (0 < entry.2)

/-- Whether the seed looks at all rows. -/
def needsFullSeed (advance : RecursiveAdvance) (component : MaintainedComponent)
    (overdeleted : Collections) : Bool :=
  (component.targets.any fun target => !(overdeleted target).list.isEmpty) ||
    component.negatedRelations.any fun relation => !(advance.delta relation).isEmpty

/-- The first frontier. -/
def seed (advance : RecursiveAdvance) (component : MaintainedComponent) (overdeleted : Collections) :
    Except KernelError Collections :=
  let rows := advance.remainingRows component overdeleted
  let derived := advance.remaining component overdeleted
  if advance.needsFullSeed component overdeleted = true then
    recursiveFullCandidates component rows (advance.targetArrangements component rows) derived
      advance.version advance.context
  else recursiveDeltaCandidates component (advance.seedEvaluation component rows) derived

/-- What is left when everything is settled. -/
def outcome (advance : RecursiveAdvance) (component : MaintainedComponent) (s : SettleState) :
    RecursiveOutcome where
  collections relation :=
    if relation ∈ component.targets then s.settled relation else advance.collections relation
  derivedSupport relation :=
    if relation ∈ component.targets then signedRows 1 Int.one_ne_zero (s.derived relation)
    else advance.derivedSupport relation
  arrangements := advance.targetArrangements component s.settled
  relationDeltas relation :=
    if relation ∈ component.targets then
      some (setDifferenceChanges (advance.currentCollections relation) (s.settled relation))
    else advance.relationDeltas relation
  negativeKeyCounts := component.targets.foldl (fun counts target =>
    refreshNegativeKeyCounts counts advance.currentCounts target
      (setDifferenceChanges (advance.currentCollections target) (s.settled target)))
    advance.negativeKeyCounts

/-- The derived tuples that are taken back: all of them, or those that may have lost support. -/
def overdeletion (advance : RecursiveAdvance) (component : MaintainedComponent) (fuel : ℕ) :
    Option (Except KernelError Collections) :=
  if advance.targetSeedRetracted component || advance.negativeBecamePresent component then
    some (.ok fun relation =>
      if relation ∈ component.targets then advance.oldDerived relation else SortedSet.empty)
  else
    (advance.overdelete component fuel).map fun result => result.map OverdeleteState.overdeleted

/-- `advance_recursive_component`; `none` when the fuel runs out. -/
def advanceRecursiveComponent (advance : RecursiveAdvance) (component : MaintainedComponent)
    (fuel : ℕ) : Option (Except KernelError RecursiveOutcome) :=
  (advance.overdeletion component fuel).bind fun
    | .error e => some (.error e)
    | .ok overdeleted =>
      match advance.seed component overdeleted with
      | .error e => some (.error e)
      | .ok frontier =>
        let rows := advance.remainingRows component overdeleted
        (loopWhile (fun s => busy component s.frontier) (advance.settleStep component) fuel
          { settled := rows
            arrangements := advance.targetArrangements component rows
            derived := advance.remaining component overdeleted
            frontier := frontier }).map fun result => result.map (advance.outcome component)

end RecursiveAdvance

/-! ## Sets of rows -/

theorem mem_positiveRows {support : WeightedRows} {t : Tuple} :
    t ∈ positiveRows support ↔ 0 < support.weight t := by
  rw [positiveRows, mem_ofList, mem_map]
  constructor
  · rintro ⟨e, he, rfl⟩
    obtain ⟨hlist, hpos⟩ := mem_filter.mp he
    rw [(mem_list.mp hlist).1]
    exact of_decide_eq_true hpos
  · intro h
    exact ⟨(t, support.weight t), mem_filter.mpr
      ⟨mem_list.mpr ⟨rfl, h.ne'⟩, decide_eq_true h⟩, rfl⟩

theorem weight_signedRows {d : ℤ} {hd : d ≠ 0} {rows : Collection} (t : Tuple) :
    (signedRows d hd rows).weight t = if t ∈ rows then d else 0 :=
  (weight_setRows t rows.list WeightedMap.empty).trans (if_congr mem_list rfl rfl)

theorem signedRows_one_pos {rows : Collection} {t : Tuple} :
    0 < (signedRows 1 one_ne_zero rows).weight t ↔ t ∈ rows := by
  rw [weight_signedRows]
  split_ifs with h <;> simp [h]

@[simp] theorem mem_extendRows {rows more : Collection} {t : Tuple} :
    t ∈ extendRows rows more ↔ t ∈ rows ∨ t ∈ more := by
  have hfold : ∀ (l : List Tuple) (rows : Collection),
      t ∈ l.foldl (fun rows t => rows.insert t) rows ↔ t ∈ rows ∨ t ∈ l := by
    intro l
    induction l with
    | nil => simp
    | cons u l ih =>
      intro rows
      rw [foldl_cons, ih, mem_insert, mem_cons]
      tauto
  exact hfold more.list rows

theorem mem_insertRow {rows : Collections} {relation r : RelationId} {t u : Tuple} :
    u ∈ insertRow rows relation t r ↔ u ∈ rows r ∨ r = relation ∧ u = t := by
  unfold insertRow
  by_cases h : r = relation
  · subst h
    rw [Function.update_self, mem_insert]
    tauto
  · rw [Function.update_of_ne h]
    simp [h]

/-- The differences of sets of rows, with or without an entry. -/
theorem getD_rowDeltas {d : ℤ} {hd : d ≠ 0} {rows : Collections} (relation : RelationId) :
    (rowDeltas d hd rows relation).getD WeightedMap.empty = signedRows d hd (rows relation) := by
  unfold rowDeltas
  split_ifs with h
  · rw [Option.getD_none, signedRows, List.isEmpty_iff.mp h]
    rfl
  · rfl

/-! ## The candidates of a rule -/

section Candidates

variable {rule : CompiledRule} {bindings : WeightedBindings}

theorem filterActiveBindings_eq {contains : RelationId → Tuple → Bool} {atoms : List CompiledAtom}
    (active : Binding → Bool) : ∀ {es : List (Binding × ℤ)} {output : WeightedBindings},
      (∀ e ∈ es, negatedBindingIsActive contains e.1 atoms = .ok (active e.1)) →
      filterActiveBindings contains atoms es output =
        .ok (output.addAll (es.filter fun e => active e.1))
  | [], _, _ => rfl
  | (b, d) :: es, output, h => by
    obtain ⟨hfirst, hrest⟩ := forall_mem_cons.mp h
    rw [filterActiveBindings, hfirst]
    change (if active b = true then _ else _) = _
    by_cases hb : active b = true
    · rw [if_pos hb, filterActiveBindings_eq active hrest, filter_cons_of_pos (by exact hb)]
      rfl
    · rw [if_neg hb, filterActiveBindings_eq active hrest, filter_cons_of_neg (by exact hb)]

/-- The filter keeps the bindings that negation lets through. -/
theorem filterActiveNegatedBindings_spec (negated : Collections)
    (hnames : ∀ b, bindings.weight b ≠ 0 → NamesRows rule b) :
    ∃ out, filterActiveNegatedBindings rule bindings negated = .ok out ∧
      ∀ b, out.weight b = if rule.blocked negated b = true then 0 else bindings.weight b := by
  unfold filterActiveNegatedBindings
  split_ifs with hnegation
  · have hactive : ∀ e ∈ bindings.map.list, negatedBindingIsActive
        (fun relation tuple => decide (tuple ∈ negated relation)) e.1 rule.negatedAtoms =
          .ok (!rule.blocked negated e.1) := by
      intro e he
      obtain ⟨hweight, hne⟩ := mem_list.mp he
      exact negatedBindingIsActive_eq (hnames e.1 (hweight ▸ hne)) fun _ _ _ => rfl
    refine ⟨bindings.retain fun b => !rule.blocked negated b, ?_, fun b => ?_⟩
    · rw [filterActiveBindings_eq (fun b => !rule.blocked negated b) hactive]
      refine congrArg Except.ok (ext_weights fun b => ?_)
      rw [← weights_apply, weights_addAll, weights_empty,
        zero_add, ← weights_apply]
      rfl
    · rw [weight_retain]
      by_cases hb : rule.blocked negated b = true <;> simp [hb]
  · have hnone : ∀ b, rule.blocked negated b = false := by
      intro b
      have hatoms : rule.negatedAtoms = [] := by simpa [CompiledRule.hasNegation] using hnegation
      rw [CompiledRule.blocked, hatoms]
      rfl
    exact ⟨bindings, rfl, fun b => by rw [hnone b]; rfl⟩

/-- The bindings that negation lets through. -/
def CompiledRule.activeIn (rule : CompiledRule) (negated : Collections) (l : List Binding) :
    List Binding :=
  l.filter fun b => !rule.blocked negated b

theorem CompiledRule.count_activeIn (rule : CompiledRule) (negated : Collections) (l : List Binding)
    (b : Binding) : ((rule.activeIn negated l).count b : ℤ) =
      if rule.blocked negated b = true then 0 else l.count b := by
  unfold CompiledRule.activeIn
  split_ifs with h
  · have hnot : b ∉ l.filter fun b => !rule.blocked negated b := fun hmem => by
      simpa [h] using of_mem_filter hmem
    rw [count_eq_zero_of_not_mem hnot, Nat.cast_zero]
  · rw [count_filter (by simpa using h)]

theorem CompiledRule.CountsFit.activeIn {l : List Binding} (h : rule.CountsFit l)
    (negated : Collections) : rule.CountsFit (rule.activeIn negated l) := fun head =>
  (Int.ofNat_le.mpr (filter_sublist.countP_le)).trans (h head)

/-- **What a rule contributes to a round**: the active derivations gained less those lost. -/
theorem ruleCandidates_spec {evaluation : DeltaEvaluation} {new old : List Binding}
    (negated : Collections) (hsafe : rule.Safe)
    (hok : evaluatePositiveBindingDelta rule evaluation = .ok bindings)
    (hweight : ∀ b, bindings.weight b = (new.count b : ℤ) - old.count b)
    (hbound : ∀ b, b ∈ new ∨ b ∈ old →
      ∀ slot, b.Bound slot ↔ slot ∈ bodySlots rule.positiveAtoms)
    (hnew : rule.CountsFit new) (hold : rule.CountsFit old) :
    ∃ out, ruleCandidates rule evaluation negated = .ok out ∧
      ∀ head, out.weight head = ((rule.activeIn negated new).countP (rule.derives head) : ℤ) -
        (rule.activeIn negated old).countP (rule.derives head) := by
  have hmem : ∀ b, bindings.weight b ≠ 0 → b ∈ new ∨ b ∈ old := by
    intro b hb
    by_contra hnot
    rw [not_or] at hnot
    rw [hweight b, count_eq_zero_of_not_mem hnot.1, count_eq_zero_of_not_mem hnot.2] at hb
    exact hb rfl
  obtain ⟨active, hactive, hactiveWeight⟩ := filterActiveNegatedBindings_spec negated
    fun b hb => hsafe.namesRows (hbound b (hmem b hb))
  have hdelta : ∀ b, active.weight b = ((rule.activeIn negated new).count b : ℤ) -
      (rule.activeIn negated old).count b := by
    intro b
    rw [hactiveWeight b, rule.count_activeIn, rule.count_activeIn, hweight b]
    split_ifs
    · rfl
    · rfl
  have hheads : ∀ b, b ∈ rule.activeIn negated new ∨ b ∈ rule.activeIn negated old →
      rule.instantiateHead b = .ok (rule.headOf b) := fun b hb =>
    rule.instantiateHead_eq hsafe.1
      (hbound b (hb.imp mem_of_mem_filter mem_of_mem_filter))
  obtain ⟨out, hout, hweights⟩ := projectRule_spec hdelta hheads (hnew.activeIn negated)
    (hold.activeIn negated) evaluation.version
  refine ⟨out, ?_, fun head => (hweights head).trans (rule.headWeight_eq hdelta head)⟩
  rw [ruleCandidates, hok]
  change (filterActiveNegatedBindings rule bindings negated).bind _ = _
  rwa [hactive]

end Candidates

/-! ## The loops over candidates and rules -/

section Loops

variable {oldDerived extensional derived : Collections}

/-- **What marking lost rows does** to the overdeleted rows and to those in front. -/
def Marks (extensional : Collections) (lost : RelationId → Tuple → Prop)
    (sets sets' : Collections × Collections) : Prop :=
  ∀ r t, (t ∈ sets'.1 r ↔ t ∈ sets.1 r ∨ lost r t) ∧
    (t ∈ sets'.2 r ↔ t ∈ sets.2 r ∨ lost r t ∧ t ∉ sets.1 r ∧ t ∉ extensional r)

/-- Marking in two rounds, for one row. -/
theorem marked_iff {p q e l l' : Prop} :
    ((q ∨ l ∧ ¬ p ∧ ¬ e) ∨ l' ∧ ¬ (p ∨ l) ∧ ¬ e) ↔ q ∨ (l ∨ l') ∧ ¬ p ∧ ¬ e := by
  by_cases hp : p <;> by_cases hl : l <;> by_cases he : e <;> simp [hp, hl, he]

theorem Marks.trans {lost lost' : RelationId → Tuple → Prop} {a b c : Collections × Collections}
    (h : Marks extensional lost a b) (h' : Marks extensional lost' b c) :
    Marks extensional (fun r t => lost r t ∨ lost' r t) a c := by
  intro r t
  obtain ⟨hfirst, hsecond⟩ := h r t
  obtain ⟨hfirst', hsecond'⟩ := h' r t
  rw [hfirst', hsecond', hfirst, hsecond]
  exact ⟨or_assoc, marked_iff⟩

theorem Marks.congr {lost lost' : RelationId → Tuple → Prop} {a b : Collections × Collections}
    (h : Marks extensional lost a b) (hlost : ∀ r t, lost r t ↔ lost' r t) :
    Marks extensional lost' a b := fun r t => by
  rw [← hlost r t]
  exact h r t

theorem marks_overdeleteCandidate (relation : RelationId) (sets : Collections × Collections)
    (candidate : Tuple × ℤ) :
    Marks extensional (fun r t => r = relation ∧ t ∈ oldDerived r ∧ t = candidate.1 ∧ candidate.2 < 0)
      sets (overdeleteCandidate relation oldDerived extensional sets candidate) := by
  obtain ⟨overdeleted, frontier⟩ := sets
  obtain ⟨u, d⟩ := candidate
  intro r t
  unfold overdeleteCandidate
  dsimp only
  by_cases hskip : 0 ≤ d ∨ u ∉ oldDerived relation ∨ u ∈ overdeleted relation
  · rw [if_pos hskip]
    have hmarked : (r = relation ∧ t ∈ oldDerived r ∧ t = u ∧ d < 0) → t ∈ overdeleted r := by
      rintro ⟨rfl, hold, rfl, hneg⟩
      exact (hskip.resolve_left hneg.not_ge).resolve_left fun h => h hold
    exact ⟨(or_iff_left_of_imp hmarked).symm,
      (or_iff_left_of_imp fun h => absurd (hmarked h.1) h.2.1).symm⟩
  rw [if_neg hskip]
  simp only [not_or, not_not, not_le] at hskip
  obtain ⟨hneg, hold, hnot⟩ := hskip
  have hlost : (r = relation ∧ t ∈ oldDerived r ∧ t = u ∧ d < 0) ↔ r = relation ∧ t = u := by
    constructor
    · exact fun h => ⟨h.1, h.2.2.1⟩
    · rintro ⟨rfl, rfl⟩
      exact ⟨rfl, hold, rfl, hneg⟩
  rw [hlost]
  refine ⟨mem_insertRow, ?_⟩
  by_cases hext : u ∈ extensional relation
  · rw [if_pos hext]
    refine (or_iff_left_of_imp ?_).symm
    rintro ⟨⟨rfl, rfl⟩, -, hnotExt⟩
    exact absurd hext hnotExt
  · rw [if_neg hext, mem_insertRow]
    refine or_congr_right ⟨?_, fun h => h.1⟩
    rintro ⟨rfl, rfl⟩
    exact ⟨⟨rfl, rfl⟩, hnot, hext⟩

theorem marks_overdeleteCandidates (relation : RelationId) : ∀ (candidates : List (Tuple × ℤ))
    (sets : Collections × Collections),
      Marks extensional (fun r t => r = relation ∧ t ∈ oldDerived r ∧ ∃ d, (t, d) ∈ candidates ∧ d < 0)
        sets (candidates.foldl (overdeleteCandidate relation oldDerived extensional) sets)
  | [], sets => fun r t => by simp
  | (u, d) :: candidates, sets => by
    refine ((marks_overdeleteCandidate relation sets (u, d)).trans
      (marks_overdeleteCandidates relation candidates _)).congr fun r t => ?_
    simp only [mem_cons, Prod.mk.injEq]
    constructor
    · rintro (⟨hr, hold, rfl, hneg⟩ | ⟨hr, hold, d', hmem, hneg⟩)
      · exact ⟨hr, hold, d, .inl ⟨rfl, rfl⟩, hneg⟩
      · exact ⟨hr, hold, d', .inr hmem, hneg⟩
    · rintro ⟨hr, hold, d', ⟨rfl, rfl⟩ | hmem, hneg⟩
      · exact .inl ⟨hr, hold, rfl, hneg⟩
      · exact .inr ⟨hr, hold, d', hmem, hneg⟩

theorem exists_mem_list_iff {rows : WeightedRows} {t : Tuple} {p : ℤ → Prop} (hp : ¬ p 0) :
    (∃ d, (t, d) ∈ rows.map.list ∧ p d) ↔ p (rows.weight t) := by
  constructor
  · rintro ⟨d, hd, h⟩
    rwa [(mem_list.mp hd).1]
  · intro h
    exact ⟨_, mem_list.mpr ⟨rfl, fun hzero => hp (hzero ▸ h)⟩, h⟩

variable {candidates : CompiledRule → Except KernelError WeightedRows}

/-- The loop over the rules marks what some rule loses. -/
theorem overdeleteRules_spec {lost : CompiledRule → Tuple → Prop} : ∀ {rules : List CompiledRule}
    (sets : Collections × Collections),
      (∀ rule ∈ rules, ∃ rows, candidates rule = .ok rows ∧ ∀ t, rows.weight t < 0 ↔ lost rule t) →
      ∃ sets', overdeleteRules oldDerived extensional candidates rules sets = .ok sets' ∧
        Marks extensional (fun r t => t ∈ oldDerived r ∧
          ∃ rule ∈ rules, rule.headRelation = r ∧ lost rule t) sets sets'
  | [], sets, _ => ⟨sets, rfl, fun r t => by simp⟩
  | rule :: rules, sets, h => by
    obtain ⟨⟨rows, hok, hlost⟩, hrest⟩ := forall_mem_cons.mp h
    obtain ⟨sets', hsets, hmarks⟩ := overdeleteRules_spec (rows.map.list.foldl
      (overdeleteCandidate rule.headRelation oldDerived extensional) sets) hrest
    refine ⟨sets', ?_, ?_⟩
    · rwa [overdeleteRules, hok]
    · refine ((marks_overdeleteCandidates rule.headRelation rows.map.list sets).trans hmarks).congr
        fun r t => ?_
      rw [exists_mem_list_iff (p := (· < 0)) (lt_irrefl 0), hlost t, exists_mem_cons_iff,
        eq_comm (a := r), ← and_left_comm, ← and_or_left]

theorem mem_addCandidates {relation : RelationId} : ∀ {candidates : List (Tuple × ℤ)}
    {frontier : Collections} {r : RelationId} {t : Tuple},
      t ∈ addCandidates relation derived candidates frontier r ↔
        t ∈ frontier r ∨ r = relation ∧ t ∉ derived r ∧ ∃ d, (t, d) ∈ candidates ∧ 0 < d
  | [], frontier, r, t => by simp [addCandidates]
  | (u, d) :: candidates, frontier, r, t => by
    have hmem : (∃ d', (t, d') ∈ (u, d) :: candidates ∧ 0 < d') ↔
        (t = u ∧ 0 < d) ∨ ∃ d', (t, d') ∈ candidates ∧ 0 < d' := by
      simp only [mem_cons, Prod.mk.injEq]
      constructor
      · rintro ⟨d', ⟨rfl, rfl⟩ | hmem, hpos⟩
        · exact .inl ⟨rfl, hpos⟩
        · exact .inr ⟨d', hmem, hpos⟩
      · rintro (⟨rfl, hpos⟩ | ⟨d', hmem, hpos⟩)
        · exact ⟨d, .inl ⟨rfl, rfl⟩, hpos⟩
        · exact ⟨d', .inr hmem, hpos⟩
    rw [addCandidates, hmem]
    by_cases hadd : 0 < d ∧ u ∉ derived relation
    · rw [if_pos hadd, mem_addCandidates, mem_insertRow]
      have hnew : (r = relation ∧ t = u) ↔ r = relation ∧ t ∉ derived r ∧ t = u ∧ 0 < d := by
        constructor
        · rintro ⟨rfl, rfl⟩
          exact ⟨rfl, hadd.2, rfl, hadd.1⟩
        · exact fun h => ⟨h.1, h.2.2.1⟩
      rw [hnew, and_or_left, and_or_left, or_assoc]
    rw [if_neg hadd, mem_addCandidates]
    have hnone : ¬ (r = relation ∧ t ∉ derived r ∧ t = u ∧ 0 < d) := by
      rintro ⟨rfl, hnot, rfl, hpos⟩
      exact hadd ⟨hpos, hnot⟩
    rw [and_or_left, and_or_left, or_iff_right hnone]

/-- The loop over the rules gathers what some rule finds. -/
theorem gatherCandidates_spec
    {found : CompiledRule → Tuple → Prop} : ∀ {rules : List CompiledRule} (frontier : Collections),
      (∀ rule ∈ rules, ∃ rows, candidates rule = .ok rows ∧
        ∀ t, t ∉ derived rule.headRelation → (0 < rows.weight t ↔ found rule t)) →
      ∃ frontier', gatherCandidates derived candidates rules frontier = .ok frontier' ∧
        ∀ r t, t ∈ frontier' r ↔ t ∈ frontier r ∨
          t ∉ derived r ∧ ∃ rule ∈ rules, rule.headRelation = r ∧ found rule t
  | [], frontier, _ => ⟨frontier, rfl, fun r t => by simp⟩
  | rule :: rules, frontier, h => by
    obtain ⟨⟨rows, hok, hfound⟩, hrest⟩ := forall_mem_cons.mp h
    obtain ⟨frontier', hfrontier, hmem⟩ := gatherCandidates_spec
      (addCandidates rule.headRelation derived rows.map.list frontier) hrest
    refine ⟨frontier', ?_, fun r t => ?_⟩
    · rwa [gatherCandidates, hok]
    rw [hmem, mem_addCandidates, exists_mem_list_iff (p := (0 < ·)) (lt_irrefl 0),
      exists_mem_cons_iff]
    have hthis : (r = rule.headRelation ∧ t ∉ derived r ∧ 0 < rows.weight t) ↔
        t ∉ derived r ∧ rule.headRelation = r ∧ found rule t := by
      constructor
      · rintro ⟨rfl, hnot, hpos⟩
        exact ⟨hnot, rfl, (hfound t hnot).mp hpos⟩
      · rintro ⟨hnot, rfl, hpos⟩
        exact ⟨rfl, hnot, (hfound t hnot).mpr hpos⟩
    rw [hthis, or_assoc, ← and_or_left]

end Loops

end Mica
