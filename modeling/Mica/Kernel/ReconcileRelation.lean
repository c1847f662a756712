import Mica.Kernel.FunctionalWrites

/-!
# Kernel/ReconcileRelation — making a relation hold given tuples

A reconciliation reads the relation, retracts what is not desired and asserts what is missing, one
tuple after the other.  What was read may be derived; a retraction does not remove it, and a later
step that is refused does not take the earlier ones back.

* `reconcileRelation_performs` — the steps, and how far they come.
* `reconcileRelation_exact` — what the relation holds afterwards, and what a refusal leaves.
-/

open SortedList List SortedSet

namespace Mica

namespace Transaction

variable {M : Type → Type} [ByteMap M]

/-- A loop of `assert` or of `retract`, left at the first refusal. -/
def applyToEach (relation : RelationId) (change : LocalChange) :
    List Tuple → Transaction M → Transaction M × Except KernelError Unit
  | [], tx => (tx, .ok ())
  | tuple :: tuples, tx =>
    match tx.applyLocalChange relation tuple change with
    | (tx, .error e) => (tx, .error e)
    | (tx, .ok ()) => applyToEach relation change tuples tx

/-- `reconcile_relation`, with the derived state of the relation as the caches or the rules give
it. -/
def reconcileRelation (derived : Except KernelError (Option (RelationState M)))
    (relation : RelationId) (desired : List Tuple) (tx : Transaction M) :
    Transaction M × Except KernelError Unit :=
  match tx.base.relation relation with
  | .error e => (tx, .error e)
  | .ok state =>
    let arity := state.metadata.arity
    let desired := SortedSet.ofList desired
    match desired.list.find? fun tuple => tuple.length ≠ arity with
    | some tuple => (tx, .error (.arityMismatch relation arity tuple.length))
    | none =>
      match tx.scan derived relation (List.replicate arity none) with
      | (tx, .error e) => (tx, .error e)
      | (tx, .ok rows) =>
        let current := SortedSet.ofList rows
        match tx.applyToEach relation .retract (current.filter (· ∉ desired)).list with
        | (tx, .error e) => (tx, .error e)
        | (tx, .ok ()) => tx.applyToEach relation .assert (desired.filter (· ∉ current)).list

/-! ## The steps -/

/-- The writes of a reconciliation, in order. -/
def reconcileSteps (relation : RelationId) (current desired : SortedSet Tuple) : List LocalWrite :=
  (current.filter (· ∉ desired)).list.map (⟨relation, ·, .retract⟩) ++
    (desired.filter (· ∉ current)).list.map (⟨relation, ·, .assert⟩)

variable {base : Snapshot M} {tx tx' : Transaction M} {log : List LocalWrite}
  {relation : RelationId} {change : LocalChange} {result : Except KernelError Unit}

/-- **How far a list of writes came**: all of them were made, or the ones before a refused one. -/
inductive Performs (base : Snapshot M) (log steps : List LocalWrite) :
    Transaction M → Except KernelError Unit → Prop where
  | all {after : Transaction M} (h : Run base after (log ++ steps)) :
      Performs base log steps after (.ok ())
  | refused {done rest : List LocalWrite} {step : LocalWrite} {before after : Transaction M}
      {e : KernelError} (hsteps : steps = done ++ step :: rest) (h : Run base before (log ++ done))
      (herr : before.applyLocalChange step.relation step.tuple step.change = (after, .error e)) :
      Performs base log steps after (.error e)

theorem applyToEach_performs (relation : RelationId) (change : LocalChange) :
    ∀ (tuples : List Tuple) {tx : Transaction M} {log : List LocalWrite}, Run base tx log →
      Performs base log (tuples.map (⟨relation, ·, change⟩))
      (tx.applyToEach relation change tuples).1 (tx.applyToEach relation change tuples).2
  | [], _, log, h => .all ((append_nil log).symm ▸ h)
  | tuple :: tuples, tx, log, h => by
    unfold applyToEach
    generalize hstep : tx.applyLocalChange relation tuple change = step
    match step with
    | (tx', .error e) =>
      exact .refused (nil_append _).symm ((append_nil log).symm ▸ h) hstep
    | (tx', .ok ()) =>
      have ih := applyToEach_performs relation change tuples (h.wrote hstep)
      dsimp only
      generalize tx'.applyToEach relation change tuples = out at ih
      obtain ⟨tx'', result⟩ := out
      dsimp only at ih
      cases ih with
      | all h => exact .all (by rwa [append_assoc] at h)
      | refused hsteps h herr =>
        rw [append_assoc] at h
        exact .refused (congrArg _ hsteps) h herr

/-- One list of writes after another. -/
theorem Performs.append {steps more : List LocalWrite}
    (h : Performs base (log ++ steps) more tx result) :
    Performs base log (steps ++ more) tx result := by
  cases h with
  | all hrun => exact .all (append_assoc log steps more ▸ hrun)
  | refused hsteps h herr =>
    subst hsteps
    exact .refused (append_assoc steps _ _).symm (append_assoc log steps _ ▸ h) herr

theorem Performs.refused_of_append {steps more : List LocalWrite} {e : KernelError}
    (h : Performs base log steps tx (.error e)) :
    Performs base log (steps ++ more) tx (.error e) := by
  cases h with
  | refused hsteps h herr =>
    subst hsteps
    exact .refused (append_assoc _ _ more) h herr

theorem Performs.run {steps : List LocalWrite} (h : Performs base log steps tx (.ok ())) :
    Run base tx (log ++ steps) := by
  cases h with
  | all h => exact h

theorem Performs.refusal {steps : List LocalWrite} {e : KernelError}
    (h : Performs base log steps tx (.error e)) :
    ∃ (done : List LocalWrite) (step : LocalWrite) (rest : List LocalWrite)
      (before : Transaction M), steps = done ++ step :: rest ∧ Run base before (log ++ done) ∧
      before.applyLocalChange step.relation step.tuple step.change = (tx, .error e) := by
  cases h with
  | refused hsteps h herr => exact ⟨_, _, _, _, hsteps, h, herr⟩

/-- A read keeps the map of visible tuples. -/
theorem scan_functionalVisible (derived : Except KernelError (Option (RelationState M)))
    (relation : RelationId) (bindings : Bindings) (tx : Transaction M) :
    (tx.scan derived relation bindings).1.functionalVisible = tx.functionalVisible := by
  unfold Transaction.scan Transaction.scanExtensionalRows
  split_ifs
  · rfl
  · rfl
  · dsimp only
    split
    · rfl
    · rfl
    · split
      · rfl
      · rfl

/-- The errors that come before the first step. -/
def Unreadable (base : Snapshot M) (tx : Transaction M)
    (derived : Except KernelError (Option (RelationState M))) (relation : RelationId)
    (desired : List Tuple) (e : KernelError) : Prop :=
  match base.relation relation with
  | .error e' => e = e'
  | .ok state =>
    (∃ t ∈ desired, t.length ≠ state.metadata.arity ∧
      e = .arityMismatch relation state.metadata.arity t.length) ∨
    (tx.scan derived relation (List.replicate state.metadata.arity none)).2 = .error e

/-- **Everything a reconciliation can do**: nothing but a read, or the steps that the rows read call
for. -/
theorem reconcileRelation_performs (h : Run base tx log)
    (derived : Except KernelError (Option (RelationState M))) (relation : RelationId)
    (desired : List Tuple) :
    (∃ e, (tx.reconcileRelation derived relation desired).2 = .error e ∧
      Unreadable base tx derived relation desired e ∧
      (∀ relation', (tx.reconcileRelation derived relation desired).1.changes relation' =
        tx.changes relation') ∧
      (tx.reconcileRelation derived relation desired).1.functionalVisible =
        tx.functionalVisible) ∨
    ∃ state rows, base.relation relation = .ok state ∧
      (∀ t ∈ desired, t.length = state.metadata.arity) ∧
      (tx.scan derived relation (List.replicate state.metadata.arity none)).2 = .ok rows ∧
      Performs base log (reconcileSteps relation (.ofList rows) (.ofList desired))
        (tx.reconcileRelation derived relation desired).1
        (tx.reconcileRelation derived relation desired).2 := by
  unfold reconcileRelation Unreadable
  rw [h.tracks.base_eq]
  split
  · next e _ => exact .inl ⟨e, rfl, rfl, fun _ => rfl, rfl⟩
  next state hstate =>
  dsimp only
  split
  · next t hfind =>
    have ht := mem_ofList.mp (mem_of_find?_eq_some hfind)
    have hne : t.length ≠ state.metadata.arity := by simpa using find?_some hfind
    exact .inl ⟨_, rfl, .inl ⟨t, ht, hne, rfl⟩, fun _ => rfl, rfl⟩
  next hfind =>
  have hscan := h.tracks.scan derived relation (List.replicate state.metadata.arity none)
  have hvisible := scan_functionalVisible derived relation
    (List.replicate state.metadata.arity none) tx
  have hread : Run base (tx.scan derived relation (List.replicate state.metadata.arity none)).1 log :=
    h.read
  generalize hscanned : tx.scan derived relation (List.replicate state.metadata.arity none) =
    scanned at hscan hvisible hread ⊢
  obtain ⟨tx₁, rows⟩ := scanned
  cases rows with
  | error e =>
    refine .inl ⟨e, rfl, .inr rfl, fun relation' => SortedMap.ext_get? fun t => ?_, hvisible⟩
    rw [hscan.changes, h.tracks.changes]
  | ok rows =>
    refine .inr ⟨state, rows, hstate, fun t ht => ?_, congrArg Prod.snd hscanned, ?_⟩
    · simpa using find?_eq_none.mp hfind t (mem_ofList.mpr ht)
    have hretracts := applyToEach_performs relation .retract
      ((SortedSet.ofList rows).filter (· ∉ SortedSet.ofList desired)).list hread
    dsimp only
    generalize tx₁.applyToEach relation .retract _ = retracted at hretracts ⊢
    obtain ⟨tx₂, result⟩ := retracted
    cases result with
    | error e => exact hretracts.refused_of_append
    | ok u =>
      refine Performs.append ?_
      cases hretracts with
      | all hrun => exact applyToEach_performs _ _ _ hrun

/-! ## What is visible afterwards -/

theorem lastChange_append_map {relation' : RelationId} {t : Tuple} :
    ∀ {tuples : List Tuple} {log : List LocalWrite},
      lastChange relation' t (log ++ tuples.map (⟨relation, ·, change⟩)) =
        if relation = relation' ∧ t ∈ tuples then some change else lastChange relation' t log
  | [], log => by simp
  | u :: tuples, log => by
    rw [map_cons, ← singleton_append, ← append_assoc, lastChange_append_map,
      lastChange_append]
    by_cases hr : relation = relation'
    · by_cases hu : u = t
      · simp [hr, hu]
      · simp [hr, hu, Ne.symm hu]
    · simp [hr]

/-- The steps make the tuples visible that are desired, except the ones that were seen already. -/
theorem visible_reconcileSteps {current desired : SortedSet Tuple} {rows : SortedSet Tuple}
    {t : Tuple} (hcurrent : Visible log relation rows t → t ∈ current) :
    Visible (log ++ reconcileSteps relation current desired) relation rows t ↔
      t ∈ desired ∧ (Visible log relation rows t ∨ t ∉ current) := by
  rw [Visible, reconcileSteps, ← append_assoc, lastChange_append_map, lastChange_append_map]
  by_cases hd : t ∈ desired
  · by_cases hc : t ∈ current
    · simp [hd, hc, Visible, mem_list]
    · simp [hd, hc, mem_list]
  · by_cases hc : t ∈ current
    · simp [hd, hc, mem_list]
    · simpa [hd, hc, mem_list, Visible] using mt hcurrent hc

theorem applyLocalChange_base (relation : RelationId) (tuple : Tuple) (change : LocalChange)
    (tx : Transaction M) : (tx.applyLocalChange relation tuple change).1.base = tx.base := by
  generalize hres : tx.applyLocalChange relation tuple change = res
  obtain ⟨tx', result⟩ := res
  cases result with
  | error e => exact (applyLocalChange_eq_error hres).1
  | ok u =>
    obtain ⟨-, tx₁, -, -, hbase, -, rfl⟩ := applyLocalChange_eq_ok hres
    exact hbase

theorem scanIndex_replicate (metadata : RelationMetadata) (n : ℕ) :
    metadata.scanIndex (List.replicate n none) = none := by
  have hnone : ∀ spec : TupleIndexSpec, spec.leadingBoundCount (List.replicate n none) = 0 := by
    intro spec
    have hbound : Bindings.isBound (List.replicate n none) = fun _ => false := by
      funext p
      rw [Bindings.isBound, getElem?_replicate]
      split <;> rfl
    rw [TupleIndexSpec.leadingBoundCount, hbound, takeWhile_eq_nil_iff.mpr (by simp)]
    rfl
  simp [RelationMetadata.scanIndex, hnone, lastMaxBy]

/-- A read of the whole relation is exact. -/
theorem Run.scan_replicate {state : RelationState M} (h : Run base tx log)
    (hstate : base.relation relation = .ok state) (hstored : state.Stored)
    (hid : state.metadata.id = relation) {derived : Option (RelationState M)}
    (hderived : ∀ d ∈ derived, d.Derived ∧ d.metadata = state.metadata) :
    ∃ out, (tx.scan (.ok derived) relation (List.replicate state.metadata.arity none)).2 = .ok out ∧
      out.Nodup ∧ ∀ t, t ∈ out ↔
        Visible log relation state.rows t ∨ derivedTuples base relation derived t := by
  have hlen : (List.replicate state.metadata.arity none : Bindings).length = state.metadata.arity :=
    length_replicate
  have hnone : state.metadata.scanIndex (List.replicate state.metadata.arity none) = none :=
    scanIndex_replicate _ _
  subst hid
  obtain ⟨out, hout, hnodup, hmem⟩ := readsExactly_of_readsInOrder hlen
    (fun spec hspec => by cases hnone.symm.trans hspec) base state hstate hstored rfl tx log h
    derived hderived
  refine ⟨out, hout, hnodup, fun t => (hmem t).trans (and_iff_left ?_)⟩
  exact TupleStore.matchesBindings_of_isNone (by simp)

section Keys

variable {state : RelationState M} {positions : List ℕ} {changed : RelationId}

theorem TracksKeys.applyToEach (hpolicy : state.metadata.conflictPolicy = .functional positions)
    (hlook : LooksUp positions state) (changed : RelationId) (change : LocalChange) :
    ∀ (tuples : List Tuple) {tx : Transaction M}, tx.base.relation relation = .ok state →
      tx.TracksKeys relation positions state.metadata.arity (· ∈ state.rows) →
      (tx.applyToEach changed change tuples).1.base = tx.base ∧
        (tx.applyToEach changed change tuples).1.TracksKeys relation positions
          state.metadata.arity (· ∈ state.rows)
  | [], _, _, h => ⟨rfl, h⟩
  | tuple :: tuples, tx, hstate, h => by
    have hstep := h.applyLocalChange hstate hpolicy hlook changed tuple change
    have hbase := tx.applyLocalChange_base changed tuple change
    unfold Transaction.applyToEach
    generalize tx.applyLocalChange changed tuple change = res at hstep hbase ⊢
    obtain ⟨tx', result⟩ := res
    cases result with
    | error e => exact ⟨hbase, hstep⟩
    | ok u =>
      obtain ⟨hrest, htracks⟩ :=
        applyToEach hpolicy hlook changed change tuples (hbase ▸ hstate) hstep
      exact ⟨hrest.trans hbase, htracks⟩

/-- The map of visible tuples stays right, however far a reconciliation comes. -/
theorem TracksKeys.reconcileRelation (hrun : Run base tx log)
    (hpolicy : state.metadata.conflictPolicy = .functional positions)
    (hlook : LooksUp positions state) (hstate : base.relation relation = .ok state)
    (h : tx.TracksKeys relation positions state.metadata.arity (· ∈ state.rows))
    (derived : Except KernelError (Option (RelationState M))) (desired : List Tuple) :
    (tx.reconcileRelation derived changed desired).1.TracksKeys relation positions
      state.metadata.arity (· ∈ state.rows) := by
  unfold Transaction.reconcileRelation
  rw [hrun.tracks.base_eq]
  split
  · exact h
  next changedState _ =>
  dsimp only
  split
  · exact h
  have hread := h.scan hrun.tracks derived changed (List.replicate changedState.metadata.arity none)
  have hbase := (hrun.tracks.scan derived changed
    (List.replicate changedState.metadata.arity none)).base_eq
  generalize tx.scan derived changed (List.replicate changedState.metadata.arity none) = scanned
    at hread hbase ⊢
  obtain ⟨tx₁, rows⟩ := scanned
  cases rows with
  | error e => exact hread
  | ok rows =>
    obtain ⟨hbase₁, hretracts⟩ := TracksKeys.applyToEach hpolicy hlook changed .retract
      ((SortedSet.ofList rows).filter (· ∉ SortedSet.ofList desired)).list (hbase ▸ hstate) hread
    dsimp only
    generalize tx₁.applyToEach changed .retract _ = retracted at hretracts hbase₁ ⊢
    obtain ⟨tx₂, result⟩ := retracted
    cases result with
    | error e => exact hretracts
    | ok u =>
      exact (TracksKeys.applyToEach hpolicy hlook changed .assert _ (hbase₁.trans hbase ▸ hstate)
        hretracts).2

end Keys

/-! ## The result -/

theorem mergeDerived_error {active : Bool} {e : KernelError} (bindings : Bindings)
    {visible rows : List Tuple}
    (h : Snapshot.mergeDerived (M := M) active (.error e) bindings visible = .ok rows) :
    Snapshot.mergeDerived (M := M) active (.ok none) bindings visible = .ok rows := by
  cases active with
  | true => exact nomatch h
  | false => exact h

/-- A read that goes through had no use for derived rows that could not be found. -/
theorem scan_ok_none {derived : Except KernelError (Option (RelationState M))}
    {bindings : Bindings} {rows : List Tuple} (h : (tx.scan derived relation bindings).2 = .ok rows) :
    (tx.scan (.ok derived.toOption.join) relation bindings).2 = .ok rows := by
  cases derived with
  | ok d => exact h
  | error e =>
    unfold Transaction.scan Snapshot.scan at *
    split at h
    · next hread =>
      rw [if_pos hread]
      dsimp only at h ⊢
      generalize tx.base.scanExtensional relation bindings = visible at h ⊢
      cases visible with
      | error e => exact nomatch h
      | ok visible => exact mergeDerived_error (M := M) bindings h
    rename_i hread
    rw [if_neg hread]
    split at h
    · next hempty =>
      rwa [if_pos hempty]
    rename_i hempty
    rw [if_neg hempty]
    generalize tx.scanExtensionalRows relation bindings = scanned at h ⊢
    obtain ⟨tx', visible⟩ := scanned
    cases visible with
    | error e => exact nomatch h
    | ok visible => exact mergeDerived_error (M := M) bindings h

/-- **What a reconciliation does.** -/
theorem reconcileRelation_exact (hrun : Run base tx log) (hbase : base.Stored)
    (derived : Except KernelError (Option (RelationState M))) (relation : RelationId)
    (hderived : ∀ state, base.relation relation = .ok state → ∀ d ∈ derived.toOption.join,
      d.Derived ∧ d.metadata = state.metadata) (desired : List Tuple) :
    let seen := derivedTuples base relation derived.toOption.join
    let out := tx.reconcileRelation derived relation desired
    (out.2 = .ok () → ∃ state, base.relation relation = .ok state ∧
      ∀ later : Option (RelationState M),
        (∀ d ∈ later, d.Derived ∧ d.metadata = state.metadata) →
        ∃ rows, (out.1.scan (.ok later) relation
            (List.replicate state.metadata.arity none)).2 = .ok rows ∧ rows.Nodup ∧
          (∀ t, t ∈ rows ↔
            t ∈ desired ∧ (Visible log relation state.rows t ∨ ¬ seen t) ∨
              derivedTuples base relation later t) ∧
          (relationHasActiveRuleHead base.rules relation = false → ∀ t, t ∈ rows ↔ t ∈ desired)) ∧
    (∀ e, out.2 = .error e →
      Unreadable base tx derived relation desired e ∧
        (∀ changed, out.1.changes changed = tx.changes changed) ∧
        out.1.functionalVisible = tx.functionalVisible ∨
      ∃ state current done step rest before, base.relation relation = .ok state ∧
        (∀ t, t ∈ current ↔ Visible log relation state.rows t ∨ seen t) ∧
        reconcileSteps relation current (.ofList desired) = done ++ step :: rest ∧
        Run base before (log ++ done) ∧
        before.applyLocalChange step.relation step.tuple step.change = (out.1, .error e) ∧
        ∀ changed t, (out.1.changes changed).get? t = lastChange changed t (log ++ done)) ∧
    ∀ changed state positions, base.relation changed = .ok state →
      state.metadata.conflictPolicy = .functional positions → LooksUp positions state →
      tx.TracksKeys changed positions state.metadata.arity (· ∈ state.rows) →
      out.1.TracksKeys changed positions state.metadata.arity (· ∈ state.rows) := by
  intro seen out
  have hkeys : ∀ changed state positions, base.relation changed = .ok state →
      state.metadata.conflictPolicy = .functional positions → LooksUp positions state →
      tx.TracksKeys changed positions state.metadata.arity (· ∈ state.rows) →
      out.1.TracksKeys changed positions state.metadata.arity (· ∈ state.rows) :=
    fun _ _ _ hstate hpolicy hlook h =>
      h.reconcileRelation hrun hpolicy hlook hstate derived desired
  rcases reconcileRelation_performs hrun derived relation desired with
    ⟨e, herr, hunreadable, hchanges, hvisible⟩ | ⟨state, rows, hstate, -, hscan, hperforms⟩
  · refine ⟨fun hok => (nomatch hok.symm.trans herr), fun e' he' => ?_, hkeys⟩
    obtain rfl : e = e' := Except.error.inj (herr.symm.trans he')
    exact .inl ⟨hunreadable, hchanges, hvisible⟩
  obtain ⟨hstored, hid⟩ := hbase relation state (Snapshot.relation_eq_ok.mp hstate)
  have hcurrent : ∀ t, t ∈ SortedSet.ofList rows ↔ Visible log relation state.rows t ∨ seen t := by
    obtain ⟨read, hread, -, hmem⟩ :=
      hrun.scan_replicate hstate hstored hid (hderived state hstate)
    obtain rfl : rows = read := Except.ok.inj ((scan_ok_none hscan).symm.trans hread)
    exact fun t => mem_ofList.trans (hmem t)
  refine ⟨fun hok => ⟨state, hstate, fun later hlater => ?_⟩, fun e he => .inr ?_, hkeys⟩
  · have hrun' : Run base out.1 (log ++
        reconcileSteps relation (.ofList rows) (.ofList desired)) := by
      rw [show (tx.reconcileRelation derived relation desired).2 = .ok () from hok] at hperforms
      exact hperforms.run
    obtain ⟨after, hafter, hnodup, hmem⟩ := hrun'.scan_replicate hstate hstored hid hlater
    have hexact : ∀ t, t ∈ after ↔
        t ∈ desired ∧ (Visible log relation state.rows t ∨ ¬ seen t) ∨
          derivedTuples base relation later t := by
      intro t
      rw [hmem, visible_reconcileSteps fun h => (hcurrent t).mpr (.inl h), hcurrent,
        mem_ofList]
      tauto
    refine ⟨after, hafter, hnodup, hexact, fun hhead t => ?_⟩
    have hnone : ∀ d, ¬ derivedTuples base relation d t := fun d hd =>
      Bool.false_ne_true (hhead.symm.trans hd.1)
    rw [hexact, or_iff_left (hnone later), and_iff_left (.inr (hnone _))]
  · rw [show (tx.reconcileRelation derived relation desired).2 = .error e from he] at hperforms
    obtain ⟨done, step, rest, before, hsteps, hbefore, herr⟩ := hperforms.refusal
    refine ⟨state, _, done, step, rest, before, hstate, hcurrent, hsteps, hbefore, herr,
      fun changed t => ?_⟩
    exact (hbefore.tracks.of_writes_eq (applyLocalChange_eq_error herr).1
      (applyLocalChange_eq_error herr).2).changes changed t

/-! ## Where it goes wrong -/

/-- A functional relation with no rows. -/
def noValues : RelationState Entries where
  metadata :=
    { RelationMetadata.new (.ofByte 7) ⟨0⟩ 2 with conflictPolicy := .functional [0] }
  tuples := TupleStore.empty
  indexes := []

/-- Two values for one key. -/
def twoValues : List Tuple := [[.bool true, .bool false], [.bool true, .bool true]]

/-- A rule that derives a row of the relation, and the state with the row. -/
def valueRule : RuleDefinition :=
  ⟨noValues.metadata.id,
    ⟨noValues.metadata.id, [.value (.bool true), .value (.bool true)], []⟩, "", true⟩

def derivedValue : RelationState Entries := (noValues.insert [.bool true, .bool true]).1

/-- Of two values for one key the first is asserted and stays, though the second is refused; and a
derived row that is not desired is retracted without error and stays as well. -/
theorem reconcileRelation_partial :
    (((Transaction.new (oneRelation noValues [])).reconcileRelation (.ok none)
          noValues.metadata.id twoValues).2 =
        .error (.functionalKeyViolation noValues.metadata.id [.bool true, .bool false]
          [.bool true, .bool true]) ∧
      (((Transaction.new (oneRelation noValues [])).reconcileRelation (.ok none)
          noValues.metadata.id twoValues).1.changes noValues.metadata.id).list =
        [([.bool true, .bool false], .assert)]) ∧
    ((Transaction.new (oneRelation noValues [valueRule])).reconcileRelation
          (.ok (some derivedValue)) noValues.metadata.id []).2 = .ok () ∧
      (((Transaction.new (oneRelation noValues [valueRule])).reconcileRelation
          (.ok (some derivedValue)) noValues.metadata.id []).1.scan (.ok (some derivedValue))
            noValues.metadata.id [none, none]).2 = .ok [[.bool true, .bool true]] := by
  refine ⟨⟨?_, ?_⟩, ?_, ?_⟩
  · decide +kernel
  · decide +kernel
  · decide +kernel
  · decide +kernel

theorem stored_oneRelation {M : Type → Type} [ByteMap M] {state : RelationState M}
    (h : state.Stored) (rules : List RuleDefinition) : (oneRelation state rules).Stored := by
  intro relation state' hget
  rw [oneRelation, SortedMap.get?_insert] at hget
  split at hget
  · next hid =>
    obtain rfl := Option.some.inj hget
    exact ⟨h, hid.symm⟩
  · cases hget

/-- Without rules a reconciliation that goes through makes the relation what it should be: a row
goes and another comes. -/
theorem reconcileRelation_exact_otherValue :
    ∃ rows, (((Transaction.new (oneRelation derivedValue [])).reconcileRelation (.ok none)
        derivedValue.metadata.id [[.bool false, .bool false]]).1.scan
          (.ok none) derivedValue.metadata.id
          (List.replicate derivedValue.metadata.arity none)).2 = .ok rows ∧
      (∀ t, t ∈ rows ↔ t ∈ [[Value.bool false, .bool false]]) ∧ [.bool true, .bool true] ∉ rows := by
  have hempty : RelationState.empty noValues.metadata = .ok noValues := rfl
  have hrow : noValues.metadata.validateTuple [.bool true, .bool true] = .ok () := by decide +kernel
  have hstored : derivedValue.Stored := .insert (.empty hempty) hrow
  obtain ⟨state, hstate, hlater⟩ := (reconcileRelation_exact (Run.new (M := Entries))
    (stored_oneRelation hstored []) (.ok none) derivedValue.metadata.id (fun _ _ _ h => by cases h)
    [[.bool false, .bool false]]).1
      (by decide +kernel)
  obtain rfl : derivedValue = state :=
    Except.ok.inj ((relation_oneRelation derivedValue []).symm.trans hstate)
  obtain ⟨rows, hrows, -, -, hexact⟩ := hlater none (by simp)
  refine ⟨rows, hrows, hexact rfl, fun hmem => ?_⟩
  exact absurd ((hexact rfl _).mp hmem) (by decide)

end Transaction

end Mica
