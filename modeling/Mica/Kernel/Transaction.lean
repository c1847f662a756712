import Mica.Kernel.Snapshot

/-!
# Kernel/Transaction — reading and writing over a base snapshot

A transaction keeps its writes apart from the snapshot it started from.  A read merges the base rows,
the local changes and the derived rows; all three must come in the same order for the merge to be
right, and the order of the base rows is that of the index that serves them.

* `Run` — every way to reach a transaction, with the log of the changes that succeeded.
* `scan_exact_iff` — reads are exact, whatever the rows and the writes, exactly when the serving index
  keeps every row and asks for the free columns from left to right.
* `retracted_still_visible` — otherwise a retracted tuple can stay visible.
-/

open OrderCode SortedList List SortedMap

namespace Mica

structure Transaction (M : Type → Type) [ByteMap M] where
  base : Snapshot M
  writes : SortedMap RelationId (RelationWriteOverlay M)
  functionalVisible : SortedMap RelationId (FunctionalVisibleMap M)

namespace Transaction

variable {M : Type → Type} [ByteMap M]

def new (base : Snapshot M) : Transaction M := ⟨base, SortedMap.empty, SortedMap.empty⟩

def isReadOnly (tx : Transaction M) : Bool := tx.writes.list.isEmpty

/-- The changes a transaction has recorded for a relation, in tuple order. -/
def changes (tx : Transaction M) (relation : RelationId) : SortedMap Tuple LocalChange :=
  ((tx.writes.get? relation).map RelationWriteOverlay.entries).getD SortedMap.empty

/-! ## Writing -/

/-- `visible_tuple_for_key` of a functional relation; the first call builds the map of visible
tuples. -/
def visibleTupleForKey (relation : RelationId) (state : RelationState M) (keyPositions : List ℕ)
    (tuple : Tuple) (tx : Transaction M) : Transaction M × Option Tuple :=
  let visible := (tx.functionalVisible.get? relation).getD
    (FunctionalVisibleMap.fromWrites keyPositions (tx.changes relation).list
      (state.tupleForKey keyPositions))
  ({ tx with functionalVisible := tx.functionalVisible.insert relation visible },
    match visible.trackedTuple tuple with
    | some tuple => tuple
    | none => state.tupleForKey keyPositions tuple)

/-- The end of `apply_local_change`: the change is written and, where visible tuples are tracked,
recorded there (`record_functional_change`). -/
def record (relation : RelationId) (state : RelationState M) (tuple : Tuple) (change : LocalChange)
    (tx : Transaction M) : Transaction M :=
  let overlay := (tx.writes.get? relation).getD RelationWriteOverlay.default
  { tx with
    writes := tx.writes.insert relation (overlay.insert tuple change)
    functionalVisible :=
      match tx.functionalVisible.get? relation with
      | none => tx.functionalVisible
      | some visible =>
        tx.functionalVisible.insert relation
          (visible.recordChangeWithBaseLookup tuple change fun positions =>
            state.tupleForKey positions tuple) }

/-- `apply_local_change`. -/
def applyLocalChange (relation : RelationId) (tuple : Tuple) (change : LocalChange)
    (tx : Transaction M) : Transaction M × Except KernelError Unit :=
  match tx.base.relation relation with
  | .error e => (tx, .error e)
  | .ok state =>
    match state.metadata.validateTuple tuple with
    | .error e => (tx, .error e)
    | .ok () =>
      match change, state.metadata.conflictPolicy with
      | .assert, .functional keyPositions =>
        match tx.visibleTupleForKey relation state keyPositions tuple with
        | (tx, some existing) =>
          if existing ≠ tuple then
            (tx, .error (.functionalKeyViolation relation existing tuple))
          else (tx.record relation state tuple change, .ok ())
        | (tx, none) => (tx.record relation state tuple change, .ok ())
      | _, _ => (tx.record relation state tuple change, .ok ())

/-- `assert`. -/
def assert (relation : RelationId) (tuple : Tuple) (tx : Transaction M) :
    Transaction M × Except KernelError Unit := tx.applyLocalChange relation tuple .assert

/-- `retract`. -/
def retract (relation : RelationId) (tuple : Tuple) (tx : Transaction M) :
    Transaction M × Except KernelError Unit := tx.applyLocalChange relation tuple .retract

/-- `replace_functional`: the visible tuple of the key goes, the new one comes. -/
def replaceFunctional (relation : RelationId) (tuple : Tuple) (tx : Transaction M) :
    Transaction M × Except KernelError Unit :=
  match tx.base.relation relation with
  | .error e => (tx, .error e)
  | .ok state =>
    match state.metadata.validateTuple tuple with
    | .error e => (tx, .error e)
    | .ok () =>
      match state.metadata.conflictPolicy with
      | .functional keyPositions =>
        match tx.visibleTupleForKey relation state keyPositions tuple with
        | (tx, none) => tx.assert relation tuple
        | (tx, some old) =>
          match tx.retract relation old with
          | (tx, .error e) => (tx, .error e)
          | (tx, .ok ()) => tx.assert relation tuple
      | _ => tx.assert relation tuple

/-! ## Reading -/

/-- The merge at the end of `scan_extensional_rows`. -/
def mergeLocalChanges (visible localAsserts localRetracts : List Tuple) : List Tuple :=
  if visible.isEmpty && localRetracts.isEmpty then localAsserts
  else
    let visible :=
      if localAsserts.isEmpty then visible else unionOrderedTupleRows visible localAsserts
    if localRetracts.isEmpty then visible else differenceOrderedTupleRows visible localRetracts

/-- `scan_extensional_rows`: the base rows, with the local asserts merged in and the local retracts
taken out. -/
def scanExtensionalRows (relation : RelationId) (bindings : Bindings) (tx : Transaction M) :
    Transaction M × Except KernelError (List Tuple) :=
  match tx.base.scanExtensional relation bindings, tx.base.relation relation with
  | .error e, _ => (tx, .error e)
  | _, .error e => (tx, .error e)
  | .ok visible, .ok state =>
    match tx.writes.get? relation with
    | none => (tx, .ok visible)
    | some overlay =>
      let (overlay, visited) := overlay.visitMatches state.metadata bindings
      let tx := { tx with writes := tx.writes.insert relation overlay }
      let visited := visited.filter fun e => e.1.matchesBindings bindings
      let localAsserts := (visited.filter fun e => e.2 = .assert).map Prod.fst
      let localRetracts := (visited.filter fun e => e.2 = .retract).map Prod.fst
      (tx, .ok (mergeLocalChanges visible localAsserts localRetracts))

/-- `scan`, with the derived state of the relation as the caches or the rules give it. -/
def scan (derived : Except KernelError (Option (RelationState M))) (relation : RelationId)
    (bindings : Bindings) (tx : Transaction M) : Transaction M × Except KernelError (List Tuple) :=
  if tx.isReadOnly then (tx, tx.base.scan derived relation bindings)
  else if tx.base.rules.isEmpty && (tx.writes.get? relation).isNone then
    (tx, tx.base.scanExtensional relation bindings)
  else
    let (tx, visible) := tx.scanExtensionalRows relation bindings
    (tx, visible.bind (Snapshot.mergeDerived (relationHasActiveRuleHead tx.base.rules relation)
      derived bindings))

/-! ## Runs

A run interleaves writes, the key lookups of replacements and reads.  Its log keeps the changes that
succeeded; what a transaction should see is the base rows with the log applied. -/

/-- A change that was made to a relation. -/
structure LocalWrite where
  relation : RelationId
  tuple : Tuple
  change : LocalChange
  deriving DecidableEq

/-- **The transactions over a base snapshot**, each with the changes made so far. -/
inductive Run (base : Snapshot M) : Transaction M → List LocalWrite → Prop where
  | new : Run base (Transaction.new base) []
  | wrote {tx tx' log relation tuple change} (h : Run base tx log)
      (hok : tx.applyLocalChange relation tuple change = (tx', .ok ())) :
      Run base tx' (log ++ [⟨relation, tuple, change⟩])
  | refused {tx tx' log relation tuple change e} (h : Run base tx log)
      (herr : tx.applyLocalChange relation tuple change = (tx', .error e)) : Run base tx' log
  | lookedUp {tx log relation state keyPositions tuple} (h : Run base tx log)
      (hstate : base.relation relation = .ok state)
      (hkey : state.metadata.conflictPolicy = .functional keyPositions) :
      Run base (tx.visibleTupleForKey relation state keyPositions tuple).1 log
  | read {tx log derived relation bindings} (h : Run base tx log) :
      Run base (tx.scan derived relation bindings).1 log

/-- The last change of a log to a tuple. -/
def lastChange (relation : RelationId) (tuple : Tuple) (log : List LocalWrite) :
    Option LocalChange :=
  (log.reverse.find? fun w => w.relation = relation && w.tuple = tuple).map LocalWrite.change

/-- **What a transaction should see**: asserted, or in the base and not retracted. -/
def Visible (log : List LocalWrite) (relation : RelationId) (rows : SortedSet Tuple)
    (tuple : Tuple) : Prop :=
  match lastChange relation tuple log with
  | some .assert => True
  | some .retract => False
  | none => tuple ∈ rows

/-! ## What one write does -/

variable {tx : Transaction M} {relation : RelationId} {tuple : Tuple} {change : LocalChange}

/-- **Everything a write can do.**  It is refused and changes nothing; or it is an assertion of a
functional key refused because of another visible tuple; or such an assertion that is recorded; or
any other write, recorded. -/
theorem applyLocalChange_cases (relation : RelationId) (tuple : Tuple) (change : LocalChange)
    (tx : Transaction M) :
    (∃ e, tx.applyLocalChange relation tuple change = (tx, .error e)) ∨
    ∃ state, tx.base.relation relation = .ok state ∧
      state.metadata.validateTuple tuple = .ok () ∧
      ((∃ keyPositions tx' visible, change = .assert ∧
        state.metadata.conflictPolicy = .functional keyPositions ∧
        tx.visibleTupleForKey relation state keyPositions tuple = (tx', visible) ∧
        ((∃ existing, visible = some existing ∧ existing ≠ tuple ∧
            tx.applyLocalChange relation tuple change =
              (tx', .error (.functionalKeyViolation relation existing tuple))) ∨
          ((∀ existing, visible = some existing → existing = tuple) ∧
            tx.applyLocalChange relation tuple change =
              (tx'.record relation state tuple change, .ok ())))) ∨
      ((change = .retract ∨ ∀ keyPositions,
          state.metadata.conflictPolicy ≠ .functional keyPositions) ∧
        tx.applyLocalChange relation tuple change =
          (tx.record relation state tuple change, .ok ()))) := by
  unfold applyLocalChange
  split
  · next e he => exact .inl ⟨e, rfl⟩
  rename_i state hstate
  split
  · next e he => exact .inl ⟨e, rfl⟩
  rename_i hok
  refine .inr ⟨state, hstate, hok, ?_⟩
  split
  · next keyPositions hpolicy =>
    generalize hfound : tx.visibleTupleForKey relation state keyPositions tuple = found
    obtain ⟨tx', visible⟩ := found
    refine .inl ⟨keyPositions, tx', visible, rfl, hpolicy, hfound, ?_⟩
    cases visible with
    | none => exact .inr ⟨nofun, rfl⟩
    | some existing =>
      dsimp only
      split
      · next hne => exact .inl ⟨existing, rfl, hne, rfl⟩
      · next heq => exact .inr ⟨fun existing' h => Option.some.inj h ▸ not_not.mp heq, rfl⟩
  · next hother =>
    refine .inr ⟨or_iff_not_imp_left.mpr fun hne keyPositions h => ?_, rfl⟩
    refine hother keyPositions ?_ h
    exact (FactChangeKind.eq_assert_or_retract _).resolve_right hne

theorem changes_record (state : RelationState M) (relation' : RelationId) :
    (tx.record relation state tuple change).changes relation' =
      if relation' = relation then (tx.changes relation).insert tuple change
      else tx.changes relation' := by
  unfold changes record
  dsimp only
  rw [get?_insert]
  split
  · rw [Option.map_some, Option.getD_some, RelationWriteOverlay.entries_insert]
    cases tx.writes.get? relation with
    | none => rfl
    | some overlay => rfl
  · rfl

/-- A write that goes through reads nothing but adds one change. -/
theorem applyLocalChange_eq_ok {tx' : Transaction M}
    (h : tx.applyLocalChange relation tuple change = (tx', .ok ())) :
    ∃ (state : RelationState M) (tx₁ : Transaction M), tx.base.relation relation = .ok state ∧
      state.metadata.validateTuple tuple = .ok () ∧ tx₁.base = tx.base ∧ tx₁.writes = tx.writes ∧
      tx' = tx₁.record relation state tuple change := by
  rcases tx.applyLocalChange_cases relation tuple change with ⟨e, he⟩ | ⟨state, hstate, hok, hcase⟩
  · cases congrArg Prod.snd (he.symm.trans h)
  rcases hcase with ⟨keyPositions, tx₁, visible, -, -, hvisible, hcase⟩ | ⟨-, hrec⟩
  · rcases hcase with ⟨existing, -, -, herr⟩ | ⟨-, hrec⟩
    · cases congrArg Prod.snd (herr.symm.trans h)
    · refine ⟨state, tx₁, hstate, hok, ?_, ?_, congrArg Prod.fst (h.symm.trans hrec)⟩
      · exact (congrArg (fun r => r.1.base) hvisible).symm
      · exact (congrArg (fun r => r.1.writes) hvisible).symm
  · exact ⟨state, tx, hstate, hok, rfl, rfl, congrArg Prod.fst (h.symm.trans hrec)⟩

/-- A refused write changes nothing but the map of visible tuples. -/
theorem applyLocalChange_eq_error {tx' : Transaction M} {e : KernelError}
    (h : tx.applyLocalChange relation tuple change = (tx', .error e)) :
    tx'.base = tx.base ∧ tx'.writes = tx.writes := by
  rcases tx.applyLocalChange_cases relation tuple change with ⟨e, he⟩ | ⟨state, hstate, hok, hcase⟩
  · obtain rfl := congrArg Prod.fst (he.symm.trans h)
    exact ⟨rfl, rfl⟩
  rcases hcase with ⟨keyPositions, tx₁, visible, -, -, hvisible, hcase⟩ | ⟨-, hrec⟩
  · rcases hcase with ⟨existing, -, -, herr⟩ | ⟨-, hrec⟩
    · obtain rfl : tx₁ = tx' := congrArg Prod.fst (herr.symm.trans h)
      exact ⟨(congrArg (fun r => r.1.base) hvisible).symm,
        (congrArg (fun r => r.1.writes) hvisible).symm⟩
    · cases congrArg Prod.snd (hrec.symm.trans h)
  · cases congrArg Prod.snd (hrec.symm.trans h)

theorem lastChange_append (log : List LocalWrite) (w : LocalWrite) (relation : RelationId)
    (tuple : Tuple) :
    lastChange relation tuple (log ++ [w]) =
      if w.relation = relation ∧ w.tuple = tuple then some w.change
      else lastChange relation tuple log := by
  rw [lastChange, reverse_append, reverse_singleton, singleton_append,
    find?_cons]
  by_cases h : w.relation = relation ∧ w.tuple = tuple
  · simp [h]
  rw [if_neg h]
  have hfalse : (decide (w.relation = relation) && decide (w.tuple = tuple)) = false := by
    simpa using h
  rw [hfalse]
  rfl

/-! ## What a run keeps -/

/-- **The invariant of a run**: the transaction stays on its base, its auxiliary indexes are up to
date, and the recorded changes are the last ones of the log. -/
structure Tracks (base : Snapshot M) (tx : Transaction M) (log : List LocalWrite) : Prop where
  base_eq : tx.base = base
  indexed : ∀ relation overlay, tx.writes.get? relation = some overlay → overlay.Indexed
  changes : ∀ relation tuple, (tx.changes relation).get? tuple = lastChange relation tuple log
  checked : ∀ relation tuple change, lastChange relation tuple log = some change →
    ∃ state, base.relation relation = .ok state ∧ state.metadata.validateTuple tuple = .ok ()

variable {base : Snapshot M} {log : List LocalWrite} {bindings : Bindings}

theorem tracks_new (base : Snapshot M) : (Transaction.new base).Tracks base [] where
  base_eq := rfl
  indexed _ _ h := nomatch h
  changes _ _ := rfl
  checked _ _ _ h := nomatch h

/-- Only the base and the writes matter. -/
theorem Tracks.of_writes_eq (h : tx.Tracks base log) {tx' : Transaction M}
    (hbase : tx'.base = tx.base) (hwrites : tx'.writes = tx.writes) : tx'.Tracks base log where
  base_eq := hbase.trans h.base_eq
  indexed := hwrites ▸ h.indexed
  changes relation tuple := by
    have hchanges : tx'.changes relation = tx.changes relation := by rw
                                                                       [Transaction.changes,
                                                                         hwrites]; rfl
    rw [hchanges, h.changes]
  checked := h.checked

theorem Tracks.record (h : tx.Tracks base log) {state : RelationState M}
    (hstate : base.relation relation = .ok state)
    (hok : state.metadata.validateTuple tuple = .ok ()) :
    (tx.record relation state tuple change).Tracks base (log ++ [⟨relation, tuple, change⟩]) where
  base_eq := h.base_eq
  indexed relation' overlay hoverlay := by
    rw [Transaction.record, get?_insert] at hoverlay
    split at hoverlay
    · obtain rfl := Option.some.inj hoverlay
      refine RelationWriteOverlay.Indexed.insert ?_ tuple change
      rcases hold : tx.writes.get? relation with _ | old
      · exact RelationWriteOverlay.indexed_default
      exact h.indexed relation old hold
    · exact h.indexed relation' overlay hoverlay
  changes relation' tuple' := by
    rw [changes_record, lastChange_append]
    split
    · next hr =>
      subst hr
      rw [get?_insert, h.changes]
      simp only [true_and, eq_comm]
    · next hr =>
      rw [h.changes, if_neg fun hw => hr hw.1.symm]
  checked relation' tuple' change' hchange := by
    rw [lastChange_append] at hchange
    split at hchange
    · next hw =>
      obtain ⟨rfl, rfl⟩ := hw
      exact ⟨state, hstate, hok⟩
    · exact h.checked relation' tuple' change' hchange

/-- What a read leaves of a transaction. -/
theorem Tracks.scanExtensionalRows (h : tx.Tracks base log) (relation : RelationId)
    (bindings : Bindings) : (tx.scanExtensionalRows relation bindings).1.Tracks base log := by
  unfold Transaction.scanExtensionalRows
  split
  · exact h
  · exact h
  · next state _ _ =>
    split
    · exact h
    rename_i overlay hoverlay
    obtain ⟨hentries, hindexed⟩ := RelationWriteOverlay.visitMatches_fst
      (h.indexed relation overlay hoverlay) state.metadata bindings
    refine ⟨h.base_eq, fun relation' overlay' hoverlay' => ?_, fun relation' tuple' => ?_,
      h.checked⟩
    · dsimp only at hoverlay'
      rw [get?_insert] at hoverlay'
      split at hoverlay'
      · obtain rfl := Option.some.inj hoverlay'
        exact hindexed
      · exact h.indexed relation' overlay' hoverlay'
    · rw [← h.changes]
      unfold Transaction.changes
      dsimp only
      rw [get?_insert]
      split
      · next hr => rw [hr, hoverlay, Option.map_some, Option.map_some, hentries]
      · rfl

theorem Tracks.scan (h : tx.Tracks base log)
    (derived : Except KernelError (Option (RelationState M))) (relation : RelationId)
    (bindings : Bindings) : (tx.scan derived relation bindings).1.Tracks base log := by
  unfold Transaction.scan
  split
  · exact h
  · split
    · exact h
    · exact h.scanExtensionalRows relation bindings

/-- **Every run keeps the invariant.** -/
theorem Run.tracks (h : Run base tx log) : tx.Tracks base log := by
  induction h with
  | new => exact tracks_new base
  | wrote _ hok ih =>
    obtain ⟨state, tx₁, hstate, hvalid, hbase, hwrites, rfl⟩ := applyLocalChange_eq_ok hok
    exact (ih.of_writes_eq hbase hwrites).record (ih.base_eq ▸ hstate) hvalid
  | refused _ herr ih =>
    obtain ⟨hbase, hwrites⟩ := applyLocalChange_eq_error herr
    exact ih.of_writes_eq hbase hwrites
  | lookedUp _ _ _ ih => exact ih.of_writes_eq rfl rfl
  | read _ ih => exact ih.scan _ _ _

/-- A replacement is a lookup and at most two writes. -/
theorem Run.replaceFunctional (h : Run base tx log) (relation : RelationId) (tuple : Tuple) :
    ∃ log', Run base (tx.replaceFunctional relation tuple).1 (log ++ log') := by
  have hwrite : ∀ {tx : Transaction M} {log : List LocalWrite} (t : Tuple) (c : LocalChange),
      Run base tx log → ∃ log', Run base (tx.applyLocalChange relation t c).1 (log ++ log') := by
    intro tx log t c h
    generalize hres : tx.applyLocalChange relation t c = res
    obtain ⟨tx', r⟩ := res
    cases r with
    | error e => exact ⟨[], (append_nil log).symm ▸ h.refused hres⟩
    | ok u => exact ⟨_, h.wrote hres⟩
  unfold Transaction.replaceFunctional
  split
  · exact ⟨[], (append_nil log).symm ▸ h⟩
  rename_i state hstate
  split
  · exact ⟨[], (append_nil log).symm ▸ h⟩
  split
  · next keyPositions hkey =>
    have hlooked : Run base (tx.visibleTupleForKey relation state keyPositions tuple).1 log :=
      h.lookedUp (h.tracks.base_eq ▸ hstate) hkey
    generalize tx.visibleTupleForKey relation state keyPositions tuple = found at hlooked ⊢
    obtain ⟨tx₁, old⟩ := found
    cases old with
    | none => exact hwrite tuple .assert hlooked
    | some old =>
      obtain ⟨log₁, hrun⟩ := hwrite old .retract hlooked
      unfold Transaction.retract
      dsimp only
      generalize tx₁.applyLocalChange relation old .retract = res at hrun ⊢
      obtain ⟨tx₂, r⟩ := res
      cases r with
      | error e => exact ⟨log₁, hrun⟩
      | ok u =>
        obtain ⟨log₂, hrun⟩ := hwrite tuple .assert hrun
        exact ⟨log₁ ++ log₂, append_assoc log log₁ log₂ ▸ hrun⟩
  · exact hwrite tuple .assert h

/-! ## Reads -/

/-- The merge of sorted rows with sorted changes. -/
theorem mergeLocalChanges_spec {visible asserts retracts : List Tuple}
    (hv : visible.Pairwise (· < ·)) (ha : asserts.Pairwise (· < ·))
    (hr : retracts.Pairwise (· < ·)) :
    (mergeLocalChanges visible asserts retracts).Pairwise (· < ·) ∧
      ∀ t, t ∈ mergeLocalChanges visible asserts retracts ↔
        (t ∈ visible ∨ t ∈ asserts) ∧ t ∉ retracts := by
  have hunion : ∀ t, t ∈ (if asserts.isEmpty then visible
      else unionOrderedTupleRows visible asserts) ↔ t ∈ visible ∨ t ∈ asserts := by
    intro t
    split
    · next h => rw [List.isEmpty_iff.mp h]; simp
    · exact mem_mergeUnion
  have hsorted : (if asserts.isEmpty then visible
      else unionOrderedTupleRows visible asserts).Pairwise (· < ·) := by
    split
    · exact hv
    · exact pairwise_mergeUnion hv ha
  unfold mergeLocalChanges
  dsimp only
  split
  · next h =>
    obtain ⟨hv', hr'⟩ := Bool.and_eq_true_iff.mp h
    rw [List.isEmpty_iff.mp hv', List.isEmpty_iff.mp hr']
    exact ⟨ha, fun t => by simp⟩
  split
  · next h =>
    rw [List.isEmpty_iff.mp h]
    exact ⟨hsorted, fun t => by rw [hunion]; simp⟩
  · refine ⟨pairwise_mergeDiff hsorted, fun t => ?_⟩
    rw [differenceOrderedTupleRows, mem_mergeDiff hsorted hr, hunion]

/-- The tuples with a given kind of change, among those that match. -/
def matchingChanges (entries : SortedMap Tuple LocalChange) (bindings : Bindings)
    (change : LocalChange) : List Tuple :=
  ((entries.list.filter fun e => e.1.matchesBindings bindings).filter
    fun e => decide (e.2 = change)).map Prod.fst

theorem mem_matchingChanges {entries : SortedMap Tuple LocalChange} {t : Tuple} :
    t ∈ matchingChanges entries bindings change ↔
      entries.get? t = some change ∧ t.matchesBindings bindings = true := by
  rw [matchingChanges, mem_map]
  constructor
  · rintro ⟨⟨u, c⟩, hmem, rfl⟩
    rw [mem_filter, mem_filter, decide_eq_true_eq] at hmem
    obtain ⟨⟨hmem, hm⟩, rfl⟩ := hmem
    exact ⟨get?_eq_some.mpr hmem, hm⟩
  · rintro ⟨hget, hm⟩
    refine ⟨(t, change), ?_, rfl⟩
    rw [mem_filter, mem_filter, decide_eq_true_eq]
    exact ⟨⟨get?_eq_some.mp hget, hm⟩, rfl⟩

theorem pairwise_matchingChanges (entries : SortedMap Tuple LocalChange) (bindings : Bindings)
    (change : LocalChange) : (matchingChanges entries bindings change).Pairwise (· < ·) :=
  pairwise_map.mpr ((entries.sorted.filter _).filter _)

/-- What a transaction sees, from the changes it has recorded. -/
theorem Tracks.visible_iff (h : tx.Tracks base log) (relation : RelationId)
    (rows : SortedSet Tuple) (t : Tuple) :
    Visible log relation rows t ↔
      (t ∈ rows ∨ (tx.changes relation).get? t = some .assert) ∧
        (tx.changes relation).get? t ≠ some .retract := by
  rw [Visible, h.changes]
  cases lastChange relation t log with
  | none => simp
  | some c => cases c <;> simp

/-- The extensional rows of a read are the base rows with the recorded changes merged in. -/
theorem Tracks.scanExtensionalRows_eq (h : tx.Tracks base log) {state : RelationState M}
    (hstate : base.relation relation = .ok state) {visible : List Tuple}
    (hscan : state.scan bindings = .ok visible) :
    (tx.scanExtensionalRows relation bindings).2 = .ok (mergeLocalChanges visible
      (matchingChanges (tx.changes relation) bindings .assert)
      (matchingChanges (tx.changes relation) bindings .retract)) := by
  have hext : tx.base.scanExtensional relation bindings = .ok visible := by
    rwa [h.base_eq, Snapshot.scanExtensional, hstate]
  unfold Transaction.scanExtensionalRows Transaction.changes
  rw [hext, h.base_eq, hstate]
  dsimp only
  rcases hoverlay : tx.writes.get? relation with _ | overlay
  · cases visible <;> rfl
  have hvisit := RelationWriteOverlay.visitMatches_filter (h.indexed relation overlay hoverlay)
    state.metadata bindings
  dsimp only
  rw [hvisit]
  rfl

/-- **The extensional rows of a read**, when the base rows come in order. -/
theorem Tracks.scanExtensionalRows_spec (h : tx.Tracks base log) {state : RelationState M}
    (hstate : base.relation relation = .ok state) {visible : List Tuple}
    (hscan : state.scan bindings = .ok visible) (hsorted : visible.Pairwise (· < ·))
    (hvisible : ∀ t, t ∈ visible ↔ t ∈ state.rows ∧ t.matchesBindings bindings = true) :
    ∃ out, (tx.scanExtensionalRows relation bindings).2 = .ok out ∧ out.Pairwise (· < ·) ∧
      ∀ t, t ∈ out ↔ Visible log relation state.rows t ∧ t.matchesBindings bindings = true := by
  obtain ⟨hpair, hmem⟩ := mergeLocalChanges_spec hsorted
    (pairwise_matchingChanges (tx.changes relation) bindings .assert)
    (pairwise_matchingChanges (tx.changes relation) bindings .retract)
  refine ⟨_, h.scanExtensionalRows_eq hstate hscan, hpair, fun t => ?_⟩
  rw [hmem, hvisible, mem_matchingChanges, mem_matchingChanges, h.visible_iff]
  tauto

section Exact

variable {metadata : RelationMetadata} {state : RelationState M}

/-- The base rows of a read. -/
theorem scan_stored (hstored : state.Stored) (hmeta : state.metadata = metadata)
    (hlen : bindings.length = metadata.arity) (hord : metadata.ReadsInOrder bindings) :
    ∃ visible, state.scan bindings = .ok visible ∧ visible.Pairwise (· < ·) ∧
      ∀ t, t ∈ visible ↔ t ∈ state.rows ∧ t.matchesBindings bindings = true := by
  subst hmeta
  by_cases hp : bindings.arePersistable = true
  · have hscans : state.metadata.ScansInOrder bindings := fun spec hspec =>
      (hord spec hspec).imp_right fun h => h.resolve_right (by rw [hp]; exact nofun)
    exact ⟨_, RelationState.scan_eq_filter hstored.valid hlen hscans, state.rows.sorted.filter _,
      fun t => mem_filter⟩
  obtain ⟨out, hscan, -, hmem⟩ := RelationState.scan_faithful hstored.valid hlen
    fun spec hspec => (hord spec hspec).1
  have hnil : out = [] := eq_nil_iff_forall_not_mem.mpr fun t ht => by
    obtain ⟨hrow, hm⟩ := (hmem t).mp ht
    exact hp (Bindings.arePersistable_of_matches
      (RelationMetadata.validateTuple_eq_ok.mp (hstored.validateTuple t hrow)).2 hm)
  subst hnil
  exact ⟨[], hscan, List.Pairwise.nil, hmem⟩

/-- The derived rows are merged in without loss or repetition. -/
theorem union_derived {derived : RelationState M} (hderived : derived.Derived)
    (hmeta : derived.metadata = metadata) (hlen : bindings.length = metadata.arity)
    (hord : metadata.ReadsInOrder bindings) {visible : List Tuple}
    (hsorted : visible.Pairwise (· < ·)) (hnil : bindings.arePersistable = false → visible = []) :
    ∃ rows, derived.scan bindings = .ok rows ∧ (unionOrderedTupleRows visible rows).Nodup ∧
      ∀ t, t ∈ unionOrderedTupleRows visible rows ↔
        t ∈ visible ∨ t ∈ derived.rows ∧ t.matchesBindings bindings = true := by
  subst hmeta
  by_cases hp : bindings.arePersistable = true
  · have hscans : derived.metadata.ScansInOrder bindings := fun spec hspec =>
      (hord spec hspec).imp_right fun h => h.resolve_right (by rw [hp]; exact nofun)
    refine ⟨_, RelationState.scan_eq_filter hderived.valid hlen hscans, ?_, fun t => ?_⟩
    · exact (pairwise_mergeUnion hsorted (derived.rows.sorted.filter _)).imp ne_of_lt
    · rw [unionOrderedTupleRows, mem_mergeUnion, mem_filter]
      rfl
  obtain ⟨rows, hscan, hnodup, hmem⟩ := RelationState.scan_faithful hderived.valid hlen
    fun spec hspec => (hord spec hspec).1
  rw [hnil (Bool.eq_false_iff.mpr hp)]
  refine ⟨rows, hscan, hnodup, fun t => ?_⟩
  rw [← hmem, unionOrderedTupleRows, mem_mergeUnion]

/-- **What a read should return**: the tuples that match and are visible or derived, each once. -/
def ExactRead (log : List LocalWrite) (relation : RelationId) (rows : SortedSet Tuple)
    (derived : Tuple → Prop) (bindings : Bindings) (out : List Tuple) : Prop :=
  out.Nodup ∧ ∀ t, t ∈ out ↔
    (Visible log relation rows t ∨ derived t) ∧ t.matchesBindings bindings = true

/-- The derived tuples of a relation, if rules derive it. -/
def derivedTuples (base : Snapshot M) (relation : RelationId)
    (derived : Option (RelationState M)) (t : Tuple) : Prop :=
  relationHasActiveRuleHead base.rules relation = true ∧ ∃ state ∈ derived, t ∈ state.rows

/-- **Reads of a relation by some bindings are exact**, over every base snapshot, every run of writes
and reads, and every derived state. -/
def ReadsExactly (M : Type → Type) [ByteMap M] (metadata : RelationMetadata)
    (bindings : Bindings) : Prop :=
  ∀ (base : Snapshot M) (state : RelationState M),
    base.relation metadata.id = .ok state → state.Stored → state.metadata = metadata →
  ∀ (tx : Transaction M) (log : List LocalWrite), Run base tx log →
  ∀ derived : Option (RelationState M), (∀ d ∈ derived, d.Derived ∧ d.metadata = metadata) →
    ∃ out, (tx.scan (.ok derived) metadata.id bindings).2 = .ok out ∧
      ExactRead log metadata.id state.rows (derivedTuples base metadata.id derived) bindings out

/-- Sorted extensional rows with the derived rows merged in are an exact read. -/
theorem exactRead_of_extensional {derived : Option (RelationState M)} {visible : List Tuple}
    (hlen : bindings.length = metadata.arity) (hord : metadata.ReadsInOrder bindings)
    (hderived : ∀ d ∈ derived, d.Derived ∧ d.metadata = metadata)
    (hsorted : visible.Pairwise (· < ·))
    (hnil : bindings.arePersistable = false → visible = [])
    (hmem : ∀ t, t ∈ visible ↔
      Visible log metadata.id state.rows t ∧ t.matchesBindings bindings = true) :
    ∃ out, Snapshot.mergeDerived (relationHasActiveRuleHead base.rules metadata.id) (.ok derived)
        bindings visible = .ok out ∧
      ExactRead log metadata.id state.rows (derivedTuples base metadata.id derived) bindings
        out := by
  unfold Snapshot.mergeDerived
  split
  · next hhead =>
    cases derived with
    | none =>
      refine ⟨visible, rfl, hsorted.imp ne_of_lt, fun t => ?_⟩
      simp [hmem, derivedTuples]
    | some d =>
      obtain ⟨hd, hmeta⟩ := hderived d rfl
      obtain ⟨rows, hscan, hnodup, hrows⟩ := union_derived hd hmeta hlen hord hsorted hnil
      refine ⟨_, congrArg (Except.map _) hscan, hnodup, fun t => ?_⟩
      simp only [hrows, hmem, derivedTuples, hhead, true_and, Option.mem_some_iff,
        exists_eq_left', or_and_right]
  · next hhead =>
    refine ⟨visible, rfl, hsorted.imp ne_of_lt, fun t => ?_⟩
    simp [hmem, derivedTuples, hhead]

/-- Stored values are persistable, and so is what a run can see. -/
theorem eq_nil_of_not_persistable (hstate : base.relation metadata.id = .ok state)
    (hstored : state.Stored) (htracks : tx.Tracks base log) {visible : List Tuple}
    (hmem : ∀ t, t ∈ visible ↔
      Visible log metadata.id state.rows t ∧ t.matchesBindings bindings = true)
    (hp : bindings.arePersistable = false) : visible = [] := by
  refine eq_nil_iff_forall_not_mem.mpr fun t ht => ?_
  obtain ⟨hvis, hm⟩ := (hmem t).mp ht
  have hok : state.metadata.validateTuple t = .ok () := by
    rcases ((htracks.visible_iff _ _ t).mp hvis).1 with hrow | hassert
    · exact hstored.validateTuple t hrow
    · obtain ⟨state', hstate', hok⟩ := htracks.checked _ t _ (htracks.changes _ t ▸ hassert)
      exact Except.ok.inj (hstate.symm.trans hstate') ▸ hok
  have hpersist :=
    Bindings.arePersistable_of_matches (RelationMetadata.validateTuple_eq_ok.mp hok).2 hm
  exact Bool.false_ne_true (hp.symm.trans hpersist)

/-- **Reads in order are exact.** -/
theorem readsExactly_of_readsInOrder (hlen : bindings.length = metadata.arity)
    (hord : metadata.ReadsInOrder bindings) : ReadsExactly M metadata bindings := by
  intro base state hstate hstored hmeta tx log hrun derived hderived
  have htracks := hrun.tracks
  obtain ⟨rows, hscan, hrows, hmemrows⟩ := scan_stored hstored hmeta hlen hord
  have hext : base.scanExtensional metadata.id bindings = .ok rows := by
    rwa [Snapshot.scanExtensional, hstate]
  -- a transaction without changes to the relation sees the base rows
  have hclean : tx.writes.get? metadata.id = none → ∀ t, t ∈ rows ↔
      Visible log metadata.id state.rows t ∧ t.matchesBindings bindings = true := by
    intro hnone t
    have hchanges : tx.changes metadata.id = SortedMap.empty := by
      rw [Transaction.changes, hnone]
      rfl
    rw [hmemrows, htracks.visible_iff, hchanges]
    simp
  have hfinish : ∀ {visible : List Tuple}, visible.Pairwise (· < ·) → (∀ t, t ∈ visible ↔
      Visible log metadata.id state.rows t ∧ t.matchesBindings bindings = true) →
      ∃ out, Snapshot.mergeDerived (relationHasActiveRuleHead base.rules metadata.id)
          (.ok derived) bindings visible = .ok out ∧
        ExactRead log metadata.id state.rows (derivedTuples base metadata.id derived) bindings out :=
    fun hsorted hmem => exactRead_of_extensional hlen hord hderived hsorted
      (eq_nil_of_not_persistable hstate hstored htracks hmem) hmem
  unfold Transaction.scan
  split
  · next hread =>
    have hnone : tx.writes.get? metadata.id = none := by
      rw [SortedMap.get?, List.isEmpty_iff.mp hread]
      rfl
    rw [Snapshot.scan, htracks.base_eq, hext]
    exact hfinish hrows (hclean hnone)
  split
  · next hempty =>
    obtain ⟨hrules, hnone⟩ := Bool.and_eq_true_iff.mp hempty
    have hhead : relationHasActiveRuleHead base.rules metadata.id = false := by
      rw [← htracks.base_eq, List.isEmpty_iff.mp hrules]
      rfl
    obtain ⟨out, hout, hexact⟩ := hfinish hrows (hclean (Option.isNone_iff_eq_none.mp hnone))
    rw [hhead] at hout
    rw [htracks.base_eq, hext]
    exact ⟨out, hout, hexact⟩
  · obtain ⟨visible, hvisible, hsorted, hmem⟩ :=
      htracks.scanExtensionalRows_spec hstate hscan hrows hmemrows
    have hbase : (tx.scanExtensionalRows metadata.id bindings).1.base = base :=
      (htracks.scanExtensionalRows metadata.id bindings).base_eq
    dsimp only
    rw [hvisible, hbase]
    exact hfinish hsorted hmem

/-! ## Where reads go wrong -/

/-- A snapshot of one relation. -/
def oneRelation (state : RelationState M) (rules : List RuleDefinition) : Snapshot M where
  version := 0
  relations := SortedMap.empty.insert state.metadata.id state
  rules := rules
  commits := []

theorem relation_oneRelation (state : RelationState M) (rules : List RuleDefinition) :
    (oneRelation state rules).relation state.metadata.id = .ok state :=
  Snapshot.relation_eq_ok.mpr get?_insert_self

/-- A rule without a body. -/
def factRule (relation : RelationId) : RuleDefinition :=
  ⟨relation, ⟨relation, [], []⟩, "", true⟩

/-- **An index that loses a row loses a derived tuple.** -/
theorem not_readsExactly_of_not_faithful (haccepted : validateMetadata metadata = .ok ())
    (hlen : bindings.length = metadata.arity) {spec : TupleIndexSpec}
    (hspec : metadata.scanIndex bindings = some spec) (hlost : ¬ spec.Faithful metadata.arity) :
    ¬ ReadsExactly M metadata bindings := by
  intro hexact
  obtain ⟨state, hempty⟩ := (RelationState.empty_eq_ok (M := M)).mpr haccepted
  obtain ⟨t, u, ht, hu, hmatch, -, hscan⟩ :=
    RelationMetadata.exists_lost (M := M) haccepted hlen hspec hlost
  obtain ⟨out, hout, hnot⟩ := hscan state hempty
  obtain ⟨rfl, hrows, -⟩ := RelationState.empty_spec hempty
  have hstored : state.Stored := RelationState.Built.empty hempty
  have hderived : ((state.insert t).1.insert u).1.Derived := by
    refine RelationState.Built.insert (RelationState.Built.insert (.empty hempty) ht) ?_
    rw [RelationState.insert_metadata, hu]
  have hmeta : ((state.insert t).1.insert u).1.metadata = state.metadata := by
    rw [RelationState.insert_metadata, RelationState.insert_metadata]
  have htmem : t ∈ ((state.insert t).1.insert u).1.rows := by
    rw [RelationState.insert_rows, RelationState.insert_rows]
    exact SortedSet.mem_insert.mpr (.inr (SortedSet.mem_insert.mpr (.inl rfl)))
  generalize ((state.insert t).1.insert u).1 = derived at hout hderived hmeta htmem
  generalize hbase : oneRelation state [factRule state.metadata.id] = base
  have hrel : base.relation state.metadata.id = .ok state := hbase ▸ relation_oneRelation state _
  have hhead : relationHasActiveRuleHead base.rules state.metadata.id = true := by
    simp [← hbase, relationHasActiveRuleHead, oneRelation, factRule]
  -- nothing is stored, so the read is the scan of the derived state
  obtain ⟨stored, hstoredscan, hsub⟩ := hstored.valid.scan_sound hlen
  have hnil : stored = [] := eq_nil_iff_forall_not_mem.mpr fun v hv =>
    SortedSet.notMem_empty v (hrows ▸ (hsub v hv).1)
  have hext : base.scanExtensional state.metadata.id bindings = .ok [] := by
    rwa [Snapshot.scanExtensional, hrel, ← hnil]
  have hres : ((Transaction.new base).scan (.ok (some derived)) state.metadata.id bindings).2 =
      .ok out := by
    have hscan : ((Transaction.new base).scan (.ok (some derived)) state.metadata.id bindings).2 =
        base.scan (.ok (some derived)) state.metadata.id bindings := rfl
    rw [hscan, Snapshot.scan, hext, hhead]
    exact congrArg (Except.map _) hout
  obtain ⟨rows, hrows', hread⟩ := hexact base state hrel hstored rfl (Transaction.new base) []
    Run.new (some derived) fun d hd => Option.mem_some_iff.mp hd ▸ ⟨hderived, hmeta⟩
  obtain rfl : out = rows := Except.ok.inj (hres.symm.trans hrows')
  exact hnot ((hread.2 t).mpr ⟨.inr ⟨hhead, derived, rfl, htmem⟩, hmatch⟩)

/-- Retracting the smaller of two rows that come the wrong way round removes nothing. -/
theorem mergeLocalChanges_out_of_order {t u : Tuple} (hlt : u < t) :
    mergeLocalChanges [t, u] [] [u] = [t, u] := by
  have hdiff : differenceOrderedTupleRows [t, u] [u] = [t, u] := by
    simp [differenceOrderedTupleRows, mergeDiff, hlt]
  exact hdiff

/-- **An index that asks for a free column out of turn leaves a retracted tuple visible.** -/
theorem not_readsExactly_of_not_orderedUnder (haccepted : validateMetadata metadata = .ok ())
    (hlen : bindings.length = metadata.arity) {spec : TupleIndexSpec}
    (hspec : metadata.scanIndex bindings = some spec)
    (hfaithful : spec.Faithful metadata.arity) (hord : ¬ spec.OrderedUnder bindings)
    (hpersist : bindings.arePersistable = true) : ¬ ReadsExactly M metadata bindings := by
  intro hexact
  obtain ⟨empty, hempty⟩ := (RelationState.empty_eq_ok (M := M)).mpr haccepted
  obtain ⟨p, q, hlt, hscan⟩ :=
    RelationMetadata.exists_out_of_order (M := M) haccepted hlen hspec hfaithful hord
  obtain ⟨hmeta, hrows, -⟩ := RelationState.empty_spec hempty
  have hok : ∀ c, metadata.validateTuple (bindings.fillAt c) = .ok () := fun c =>
    RelationMetadata.validateTuple_eq_ok.mpr
      ⟨Bindings.length_fill.trans hlen, Bindings.isPersistable_fillAt hpersist c⟩
  generalize hstate : ((empty.insert (bindings.fillAt p)).1.insert (bindings.fillAt q)).1 = state
  have hstored : state.Stored := by
    rw [← hstate]
    refine RelationState.Built.insert (RelationState.Built.insert (.empty hempty) ?_) ?_
    · rw [hmeta, hok]
    · rw [RelationState.insert_metadata, hmeta, hok]
  have hmeta' : state.metadata = metadata := by
    rw [← hstate, RelationState.insert_metadata, RelationState.insert_metadata, hmeta]
  have hrows' : ∀ t, t ∈ state.rows ↔ t = bindings.fillAt q ∨ t = bindings.fillAt p := by
    intro t
    rw [← hstate, RelationState.insert_rows, RelationState.insert_rows, hrows,
      SortedSet.mem_insert, SortedSet.mem_insert, or_iff_left (SortedSet.notMem_empty t)]
  have hpair := hscan state hstored.valid hmeta' hrows'
  subst hmeta'
  generalize hbase : oneRelation state [] = base
  have hrel : base.relation state.metadata.id = .ok state := hbase ▸ relation_oneRelation state _
  have hhead : relationHasActiveRuleHead base.rules state.metadata.id = false := by
    rw [← hbase]
    rfl
  have hwrite : (Transaction.new base).applyLocalChange state.metadata.id (bindings.fillAt p)
      .retract = ((Transaction.new base).record state.metadata.id state (bindings.fillAt p)
        .retract, .ok ()) := by
    rw [applyLocalChange, show (Transaction.new base).base = base from rfl, hrel]
    dsimp only
    rw [hok p]
  have hrun := Run.new.wrote hwrite
  have hchanges : ((Transaction.new base).record state.metadata.id state (bindings.fillAt p)
      .retract).changes state.metadata.id =
        SortedMap.empty.insert (bindings.fillAt p) .retract := by
    rw [changes_record, if_pos rfl]
    rfl
  have hwritten : ((Transaction.new base).record state.metadata.id state (bindings.fillAt p)
      .retract).writes.get? state.metadata.id ≠ none := by
    rw [record, get?_insert_self]
    exact Option.some_ne_none _
  generalize (Transaction.new base).record state.metadata.id state (bindings.fillAt p) .retract =
    tx at hrun hchanges hwritten
  have htracks := hrun.tracks
  have hmatch : (bindings.fillAt p).matchesBindings bindings = true := Bindings.matchesBindings_fill
  have hasserts : matchingChanges (tx.changes state.metadata.id) bindings .assert = [] :=
    eq_nil_iff_forall_not_mem.mpr fun t ht => by
      have hget := (mem_matchingChanges.mp ht).1
      rw [hchanges, get?_insert] at hget
      split_ifs at hget
      · cases hget
      · cases hget
  have hretracts : matchingChanges (tx.changes state.metadata.id) bindings .retract =
      [bindings.fillAt p] := by
    rw [matchingChanges, hchanges]
    have hlist : (SortedMap.empty.insert (bindings.fillAt p) FactChangeKind.retract).list =
      [(bindings.fillAt p, .retract)] := rfl
    simp [hlist, hmatch]
  have hres : (tx.scan (.ok none) state.metadata.id bindings).2 =
      .ok [bindings.fillAt q, bindings.fillAt p] := by
    have hrows := htracks.scanExtensionalRows_eq hrel hpair
    rw [hasserts, hretracts, mergeLocalChanges_out_of_order hlt] at hrows
    have hbase' : (tx.scanExtensionalRows state.metadata.id bindings).1.base = base :=
      (htracks.scanExtensionalRows _ _).base_eq
    unfold Transaction.scan
    rw [if_neg, if_neg]
    · dsimp only
      rw [hrows, hbase', hhead]
      rfl
    · intro h
      exact hwritten (Option.isNone_iff_eq_none.mp (Bool.and_eq_true_iff.mp h).2)
    · intro h
      rw [isReadOnly, List.isEmpty_iff] at h
      exact hwritten (by rw [SortedMap.get?, h]; rfl)
  obtain ⟨out, hout, hread⟩ := hexact base state hrel hstored rfl tx _ hrun none
    (by simp)
  obtain rfl : [bindings.fillAt q, bindings.fillAt p] = out :=
    Except.ok.inj (hres.symm.trans hout)
  obtain ⟨hvisible | ⟨hactive, -⟩, -⟩ := (hread.2 (bindings.fillAt p)).mp (by simp)
  · rw [htracks.visible_iff, hchanges, get?_insert_self] at hvisible
    exact hvisible.2 rfl
  · exact Bool.false_ne_true (hhead.symm.trans hactive)

/-- **When transaction reads are exact.**  Over every base snapshot, every sequence of writes and
reads and every derived state, a read by these bindings returns exactly the visible and derived
tuples that match — if and only if no index serves it, or the index that does keeps every row and
either asks for the free columns from left to right or is asked for a value that no stored row can
hold. -/
theorem scan_exact_iff (haccepted : validateMetadata metadata = .ok ())
    (hlen : bindings.length = metadata.arity) :
    ReadsExactly M metadata bindings ↔ metadata.ReadsInOrder bindings := by
  refine ⟨fun hexact spec hspec => ?_, readsExactly_of_readsInOrder hlen⟩
  have hfaithful : spec.Faithful metadata.arity := by
    by_contra hlost
    exact not_readsExactly_of_not_faithful haccepted hlen hspec hlost hexact
  refine ⟨hfaithful, or_iff_not_imp_left.mpr fun hord => Bool.eq_false_iff.mpr fun hpersist => ?_⟩
  exact not_readsExactly_of_not_orderedUnder haccepted hlen hspec hfaithful hord hpersist hexact

/-- Three columns, with an index by the last and then the middle one. -/
def lastThenMiddle : RelationMetadata where
  id := .ofByte 7
  name := ⟨0⟩
  arity := 3
  argumentNames := [none, none, none]
  indexes := [TupleIndexSpec.allPositions 3, ⟨[2, 1]⟩]
  conflictPolicy := .set
  durability := .durable

/-- The index serves a read by the last column; the transaction retracts the first of the two rows,
which comes second out of the index, and still reads it. -/
theorem retracted_still_visible :
    ∃ (base : Snapshot Entries) (state : RelationState Entries) (tx : Transaction Entries),
      base.relation lastThenMiddle.id = .ok state ∧ state.Stored ∧
      state.metadata = lastThenMiddle ∧
      Run base tx [⟨lastThenMiddle.id, [.bool false, .bool true, .bool true], .retract⟩] ∧
      (tx.scan (.ok none) lastThenMiddle.id [none, none, some (.bool true)]).2 =
        .ok [[.bool true, .bool false, .bool true], [.bool false, .bool true, .bool true]] := by
  let empty : RelationState Entries :=
    ⟨lastThenMiddle, TupleStore.empty, [TupleIndex.empty ⟨[2, 1]⟩ 3]⟩
  let state := ((empty.insert [.bool false, .bool true, .bool true]).1.insert
    [.bool true, .bool false, .bool true]).1
  let tx := Transaction.new (oneRelation state [])
  have hempty : RelationState.empty lastThenMiddle = .ok empty := rfl
  have hstored : state.Stored := by
    refine RelationState.Built.insert (RelationState.Built.insert (.empty hempty) ?_) ?_
    · decide
    · rw [RelationState.insert_metadata]
      decide
  have hmeta : state.metadata = lastThenMiddle := by
    rw [RelationState.insert_metadata, RelationState.insert_metadata]
  have hok : (tx.retract lastThenMiddle.id [.bool false, .bool true, .bool true]).2 = .ok () := by
    decide +kernel
  refine ⟨oneRelation state [], state,
    (tx.retract lastThenMiddle.id [.bool false, .bool true, .bool true]).1,
    hmeta ▸ relation_oneRelation state [], hstored, hmeta, Run.new.wrote (Prod.ext rfl hok), ?_⟩
  decide +kernel

/-- Reads of the last two columns of that relation are exact. -/
theorem scan_exact_iff_lastTwo :
    ReadsExactly Entries lastThenMiddle [none, some (.bool true), some (.bool true)] :=
  (scan_exact_iff rfl rfl).mpr fun spec hspec => by
    obtain rfl : (⟨[2, 1]⟩ : TupleIndexSpec) = spec := Option.some.inj hspec
    refine ⟨by decide, .inl fun j p hj hp => ?_⟩
    match j, hj with
    | 0, hj => cases hj; exact nomatch hp
    | 1, hj => cases hj; exact nomatch hp

end Exact

end Transaction

end Mica
