import Mica.Kernel.FunctionalWrites

/-!
# Kernel/Commit — conflicts, the next snapshot, and publication

A commit takes the root as it is now.  If the root has moved since the transaction began, the writes
are checked against it, policy by policy; then they are applied to it in tuple order, the commit is
persisted, and the result becomes the root.

* `Transaction.prepare_rows` — each written relation gets exactly the effective changes.
* `Transaction.prepare_agrees` — at every written functional key base and root hold the same row.
* `Transaction.prepare_unique` — hence the next snapshot has one row for each functional key.
-/

open OrderCode SortedList List SortedMap SortedSet
open Option (some.inj)

namespace Mica

namespace Transaction

variable {M : Type → Type} [ByteMap M]

/-! ## The checks -/

/-- `validate_set_conflicts`: an asserted tuple that the base had is still there. -/
def validateSetConflicts (relation : RelationId) (writes : RelationWriteOverlay M)
    (base current : RelationState M) : Except KernelError Unit :=
  match writes.entries.list.find? fun e =>
    e.2 = .assert && base.containsTuple e.1 && !current.containsTuple e.1 with
  | some e => .error (.conflict ⟨relation, e.1, .assertRetract⟩)
  | none => .ok ()

/-- `validate_functional_conflicts`: the rows at the touched keys have not changed.  The keys come
from the map of visible tuples where there is one. -/
def validateFunctionalConflicts (relation : RelationId) (positions : List ℕ)
    (visible : Option (FunctionalVisibleMap M)) (writes : RelationWriteOverlay M)
    (base current : RelationState M) : Except KernelError Unit :=
  match visible with
  | some visible =>
    match visible.conflictEntries.find? fun entry =>
      base.tupleForKey positions entry.representative ≠
        current.tupleForKey positions entry.representative with
    | some entry =>
      let tuple := (entry.tuple.or (base.tupleForKey positions entry.representative)).getD
        (entry.representative.select positions)
      .error (.conflict ⟨relation, tuple, .functionalKeyChanged⟩)
    | none => .ok ()
  | none =>
    match (writes.touchedProjectedKeys positions).list.find? fun e =>
      base.tupleForProjectedKey positions e.1 ≠ current.tupleForProjectedKey positions e.1 with
    | some e => .error (.conflict ⟨relation, e.2, .functionalKeyChanged⟩)
    | none => .ok ()

/-- The checks of one written relation. -/
def validateRelationConflicts (relation : RelationId) (writes : RelationWriteOverlay M)
    (current : Snapshot M) (tx : Transaction M) : Except KernelError Unit :=
  match tx.base.relation relation, current.relation relation with
  | .error e, _ => .error e
  | _, .error e => .error e
  | .ok base, .ok current =>
    match base.metadata.conflictPolicy with
    | .set => validateSetConflicts relation writes base current
    | .functional positions => validateFunctionalConflicts relation positions
        (tx.functionalVisible.get? relation) writes base current
    | .eventAppend => .ok ()

/-- `validate_conflicts`. -/
def validateConflicts (current : Snapshot M) (tx : Transaction M) : Except KernelError Unit :=
  tx.writes.list.forM fun e => tx.validateRelationConflicts e.1 e.2 current

/-! ## The next snapshot -/

/-- The loop of `build_next_snapshot`, over the written relations in order of their ids. -/
def applyWrites (base : Snapshot M) : List (RelationId × RelationWriteOverlay M) →
    SortedMap RelationId (RelationState M) →
      Except KernelError (SortedMap RelationId (RelationState M) × List FactChange)
  | [], relations => .ok (relations, [])
  | (relation, writes) :: rest, relations =>
    match relations.get? relation, base.relation relation with
    | none, _ => .error (.unknownRelation relation)
    | _, .error e => .error e
    | some state, .ok baseState =>
      let (state, changes) := writes.applyOrderedChanges state baseState
      match applyWrites base rest (relations.insert relation state) with
      | .error e => .error e
      | .ok (relations, restChanges) =>
        .ok (relations, changes.map (fun e => ⟨relation, e.1, e.2⟩) ++ restChanges)

/-- `build_next_snapshot`; `settled` is how the maintenance of derived relations goes. -/
def buildNextSnapshot (settled : Except KernelError Unit) (current : Snapshot M)
    (tx : Transaction M) : Except KernelError (Snapshot M × Commit) :=
  match applyWrites tx.base tx.writes.list current.relations with
  | .error e => .error e
  | .ok (relations, changes) =>
    match settled with
    | .error e => .error e
    | .ok () =>
      let commit : Commit := ⟨current.version + 1, [], changes⟩
      .ok (⟨current.version + 1, relations, current.rules, current.commits ++ [commit]⟩, commit)

/-- The part of `commit_inner` before anything is persisted. -/
def prepare (settled : Except KernelError Unit) (current : Snapshot M) (tx : Transaction M) :
    Except KernelError (Snapshot M × Commit) :=
  if current.version ≠ tx.base.version then
    match tx.validateConflicts current with
    | .error e => .error e
    | .ok () => tx.buildNextSnapshot settled current
  else tx.buildNextSnapshot settled current

end Transaction

/-! ## What the writes do to a relation -/

/-- **The rows after a commit**: the current ones without the effective retractions, and the asserted
ones.  A retraction is effective if the base had the tuple. -/
def CommittedRow (changes : Tuple → Option LocalChange) (base current : Tuple → Prop) (t : Tuple) :
    Prop :=
  (current t ∧ ¬ (changes t = some .retract ∧ base t)) ∨ changes t = some .assert

namespace RelationState

variable {M : Type → Type} [ByteMap M] {state : RelationState M}

theorem applyChange_metadata (baseContains : Tuple → Bool) (e : Tuple × FactChangeKind)
    (state : RelationState M) :
    (state.applyChange baseContains e).1.metadata = state.metadata := by
  unfold applyChange
  split
  · exact insert_metadata state e.1
  · split
    · exact remove_metadata state e.1
    · rfl

theorem mem_applyChange (baseContains : Tuple → Bool) (e : Tuple × FactChangeKind)
    (state : RelationState M) (u : Tuple) :
    u ∈ (state.applyChange baseContains e).1.rows ↔
      (u ∈ state.rows ∧ ¬ (e = (u, .retract) ∧ baseContains u = true)) ∨ e = (u, .assert) := by
  obtain ⟨t, c⟩ := e
  unfold applyChange
  cases c with
  | assert =>
    rw [insert_rows, mem_insert, Prod.mk.injEq, Prod.mk.injEq, and_iff_left rfl, or_comm]
    simp [eq_comm (a := u)]
  | retract =>
    dsimp only
    split
    · next hb =>
      rw [remove_rows, mem_erase]
      simp only [Prod.mk.injEq, and_true, reduceCtorEq, and_false, or_false]
      constructor
      · exact fun ⟨hne, hu⟩ => ⟨hu, fun h => hne h.1.symm⟩
      · exact fun ⟨hu, hne⟩ => ⟨fun h => hne ⟨h.symm, h ▸ hb⟩, hu⟩
    · next hb =>
      simp only [Prod.mk.injEq, and_true, reduceCtorEq, and_false, or_false]
      exact ⟨fun hu => ⟨hu, fun h => hb (h.1 ▸ h.2)⟩, And.left⟩

theorem Stored.applyChange (h : state.Stored) (baseContains : Tuple → Bool)
    {e : Tuple × FactChangeKind} (he : state.metadata.validateTuple e.1 = .ok ()) :
    (state.applyChange baseContains e).1.Stored := by
  unfold RelationState.applyChange
  split
  · exact Built.insert h he
  · split
    · exact Built.remove h
    · exact h

/-- **Changes applied in order** leave the committed rows. -/
theorem Stored.applyOrderedChanges (h : state.Stored) (baseContains : Tuple → Bool)
    {changes : List (Tuple × FactChangeKind)}
    (hok : ∀ e ∈ changes, state.metadata.validateTuple e.1 = .ok ())
    (hnodup : changes.Pairwise fun e f => e.1 ≠ f.1) :
    (state.applyOrderedChanges baseContains changes).1.Stored ∧
      (state.applyOrderedChanges baseContains changes).1.metadata = state.metadata ∧
      ∀ t, t ∈ (state.applyOrderedChanges baseContains changes).1.rows ↔
        (t ∈ state.rows ∧ ¬ ((t, .retract) ∈ changes ∧ baseContains t = true)) ∨
          (t, .assert) ∈ changes := by
  induction changes generalizing state with
  | nil => exact ⟨h, rfl, by simp [RelationState.applyOrderedChanges]⟩
  | cons e changes ih =>
    obtain ⟨he, hes⟩ := forall_mem_cons.mp hok
    obtain ⟨hne, hnodup⟩ := pairwise_cons.mp hnodup
    have hmeta := applyChange_metadata baseContains e state
    obtain ⟨hstored, hmeta', hrows⟩ := ih (h.applyChange baseContains he) (by rwa [hmeta]) hnodup
    refine ⟨hstored, hmeta'.trans hmeta, fun t => (hrows t).trans ?_⟩
    -- a tuple has one change, so nothing that comes later undoes this one
    have hlater : ∀ c d, (t, c) = e → (t, d) ∉ changes := fun c d het hmem =>
      hne _ hmem (het ▸ rfl)
    have hretract := hlater .retract .assert
    have hassert := hlater .assert .retract
    rw [mem_applyChange, mem_cons, mem_cons, eq_comm (b := (t, FactChangeKind.retract)),
      eq_comm (b := (t, FactChangeKind.assert))]
    tauto

end RelationState

namespace RelationWriteOverlay

variable {M : Type → Type} [ByteMap M]

/-- **The writes of a transaction, applied to a relation.** -/
theorem applyOrderedChanges_spec (overlay : RelationWriteOverlay M) {relation : RelationState M}
    (base : RelationState M) (h : relation.Stored)
    (hok : ∀ e ∈ overlay.entries.list, relation.metadata.validateTuple e.1 = .ok ()) :
    (overlay.applyOrderedChanges relation base).1.Stored ∧
      (overlay.applyOrderedChanges relation base).1.metadata = relation.metadata ∧
      ∀ t, t ∈ (overlay.applyOrderedChanges relation base).1.rows ↔
        CommittedRow overlay.entries.get? (· ∈ base.rows) (· ∈ relation.rows) t := by
  unfold applyOrderedChanges
  dsimp only
  split
  · next hbulk =>
    obtain ⟨-, hempty, hasserts⟩ := hbulk
    have hrows : relation.rows = SortedSet.empty := ext_mem fun t =>
      iff_of_false (TupleStore.isEmpty_iff.mp hempty t) (notMem_empty t)
    have hvalid : ∀ t ∈ overlay.entries.list.map Prod.fst,
        relation.metadata.validateTuple t = .ok () := by
      intro t ht
      obtain ⟨e, he, rfl⟩ := mem_map.mp ht
      exact hok e he
    obtain ⟨-, hmeta, hload, -⟩ := h.valid.applyOrderedAssertsToEmpty hrows
      fun t ht => (RelationMetadata.validateTuple_eq_ok.mp (hvalid t ht)).1
    refine ⟨RelationState.Built.load h hrows hvalid, hmeta, fun t => ?_⟩
    rw [hload, mem_ofList, CommittedRow, hrows, mem_map]
    constructor
    · rintro ⟨⟨u, c⟩, he, rfl⟩
      have hc : c = .assert := by simpa using all_eq_true.mp hasserts _ he
      exact .inr (get?_eq_some.mpr (hc ▸ he))
    · rintro (⟨hmem, -⟩ | he)
      · exact absurd hmem (notMem_empty t)
      · exact ⟨_, get?_eq_some.mp he, rfl⟩
  · obtain ⟨hstored, hmeta, hrows⟩ := h.applyOrderedChanges base.containsTuple hok
      (overlay.entries.sorted.imp ne_of_lt)
    refine ⟨hstored, hmeta, fun t => (hrows t).trans ?_⟩
    rw [CommittedRow, get?_eq_some, get?_eq_some, RelationState.containsTuple,
      TupleStore.contains_iff]
    rfl

/-- Every changed tuple has its key among the touched ones. -/
theorem mem_touchedProjectedKeys {overlay : RelationWriteOverlay M} (positions : List ℕ)
    {e : Tuple × LocalChange} (he : e ∈ overlay.entries.list) :
    ∃ r, (e.1.select positions, r) ∈ (overlay.touchedProjectedKeys positions).list := by
  have hfold : ∀ (es : List (Tuple × LocalChange)) (keys : SortedMap Tuple Tuple) (key : Tuple),
      ((keys.get? key).isSome ∨ ∃ e ∈ es, e.1.select positions = key) →
      ((es.foldl (fun keys e => keys.insert (e.1.select positions) e.1) keys).get? key).isSome := by
    intro es
    induction es with
    | nil => simp
    | cons e es ih =>
      intro keys key h
      refine ih _ key ?_
      rw [get?_insert]
      split
      · exact .inl rfl
      rename_i hne
      rcases h with h | ⟨f, hf, hkey⟩
      · exact .inl h
      · refine .inr ⟨f, (mem_cons.mp hf).resolve_left fun hfe => hne ?_, hkey⟩
        rw [← hkey, hfe]
  obtain ⟨r, hr⟩ := Option.isSome_iff_exists.mp
    (hfold overlay.entries.list SortedMap.empty _ (.inr ⟨e, he, rfl⟩))
  exact ⟨r, get?_eq_some.mp hr⟩

end RelationWriteOverlay

/-! ## What a commit prepares -/

namespace Snapshot

variable {M : Type → Type} [ByteMap M]

/-- The extensional facts of a snapshot. -/
def Holds (snapshot : Snapshot M) (relation : RelationId) (t : Tuple) : Prop :=
  ∃ state, snapshot.relations.get? relation = some state ∧ t ∈ state.rows

theorem holds_iff {snapshot : Snapshot M} {relation : RelationId} {state : RelationState M}
    (h : snapshot.relations.get? relation = some state) {t : Tuple} :
    snapshot.Holds relation t ↔ t ∈ state.rows :=
  ⟨fun ⟨_, h', ht⟩ => some.inj (h.symm.trans h') ▸ ht, fun ht => ⟨state, h, ht⟩⟩

/-- **A snapshot that grew out of another**: it has the same relations, and the same version only if
it is the same. -/
structure Follows (base current : Snapshot M) : Prop where
  metadata_eq : ∀ relation state, base.relations.get? relation = some state →
    ∃ state', current.relations.get? relation = some state' ∧ state'.metadata = state.metadata
  eq_of_version : current.version = base.version → current = base

/-- **No functional relation has two rows of one key.** -/
def FunctionalKeys (snapshot : Snapshot M) : Prop :=
  ∀ relation state positions, snapshot.relations.get? relation = some state →
    state.metadata.conflictPolicy = .functional positions →
      UniqueKeys positions (· ∈ state.rows)

/-- Key lookups find every row of every functional relation. -/
def FindsKeys (snapshot : Snapshot M) : Prop :=
  ∀ relation state positions, snapshot.relations.get? relation = some state →
    state.metadata.conflictPolicy = .functional positions → state.metadata.FindsKeys positions

theorem looksUp {snapshot : Snapshot M} (hstored : snapshot.Stored)
    (hfinds : snapshot.FindsKeys) (hkeys : snapshot.FunctionalKeys) {relation : RelationId}
    {state : RelationState M} {positions : List ℕ}
    (hstate : snapshot.relations.get? relation = some state)
    (hpolicy : state.metadata.conflictPolicy = .functional positions) :
    Transaction.LooksUp positions state :=
  Transaction.looksUp_of_unique (hstored relation state hstate).1.valid hpolicy
    (hfinds relation state positions hstate hpolicy) (hkeys relation state positions hstate hpolicy)

end Snapshot

namespace Transaction

variable {M : Type → Type} [ByteMap M]

/-- **What the loop over the written relations does.** -/
theorem applyWrites_spec {base : Snapshot M} {writes : List (RelationId × RelationWriteOverlay M)}
    {relations relations' : SortedMap RelationId (RelationState M)} {changes : List FactChange}
    (hnodup : writes.Pairwise fun e f => e.1 ≠ f.1)
    (h : applyWrites base writes relations = .ok (relations', changes)) :
    (∀ id, (∀ e ∈ writes, e.1 ≠ id) → relations'.get? id = relations.get? id) ∧
      ∀ e ∈ writes, ∃ state baseState, relations.get? e.1 = some state ∧
        base.relations.get? e.1 = some baseState ∧
        relations'.get? e.1 = some (e.2.applyOrderedChanges state baseState).1 := by
  induction writes generalizing relations relations' changes with
  | nil =>
    obtain ⟨rfl, rfl⟩ := Prod.mk.inj (Except.ok.inj h)
    exact ⟨fun _ _ => rfl, nofun⟩
  | cons e writes ih =>
    obtain ⟨relation, overlay⟩ := e
    obtain ⟨hne, hnodup⟩ := pairwise_cons.mp hnodup
    unfold applyWrites at h
    split at h
    · cases h
    · cases h
    · next state baseState hstate hbase =>
      dsimp only at h
      split at h
      · cases h
      rename_i relations'' rest hrest
      obtain ⟨rfl, rfl⟩ := Prod.mk.inj (Except.ok.inj h)
      obtain ⟨hsame, hwritten⟩ := ih hnodup hrest
      refine ⟨fun id hid => ?_, fun f hf => ?_⟩
      · obtain ⟨hid, hids⟩ := forall_mem_cons.mp hid
        rw [hsame id hids, get?_insert_of_ne (Ne.symm hid)]
      rcases mem_cons.mp hf with rfl | hf
      · refine ⟨state, baseState, hstate, Snapshot.relation_eq_ok.mp hbase, ?_⟩
        rw [hsame relation fun f hf => (hne f hf).symm, get?_insert_self]
      · obtain ⟨state', baseState', hstate', hrel⟩ := hwritten f hf
        rw [get?_insert_of_ne (hne f hf).symm] at hstate'
        exact ⟨state', baseState', hstate', hrel⟩

/-- Everything a prepared commit has gone through. -/
theorem prepare_eq_ok {settled : Except KernelError Unit} {current next : Snapshot M}
    {tx : Transaction M} {commit : Commit} (h : tx.prepare settled current = .ok (next, commit)) :
    (current.version ≠ tx.base.version → tx.validateConflicts current = .ok ()) ∧
      ∃ relations changes, applyWrites tx.base tx.writes.list current.relations =
        .ok (relations, changes) ∧ commit = ⟨current.version + 1, [], changes⟩ ∧
        next = ⟨current.version + 1, relations, current.rules, current.commits ++ [commit]⟩ := by
  have hbuild : tx.buildNextSnapshot settled current = .ok (next, commit) →
      ∃ relations changes, applyWrites tx.base tx.writes.list current.relations =
        .ok (relations, changes) ∧ commit = ⟨current.version + 1, [], changes⟩ ∧
        next = ⟨current.version + 1, relations, current.rules, current.commits ++ [commit]⟩ := by
    intro h
    unfold buildNextSnapshot at h
    split at h
    · cases h
    rename_i relations changes happly
    split at h
    · cases h
    obtain ⟨rfl, rfl⟩ := Prod.mk.inj (Except.ok.inj h)
    exact ⟨relations, changes, happly, rfl, rfl⟩
  unfold prepare at h
  split at h
  · split at h
    · cases h
    rename_i hok
    exact ⟨fun _ => hok, hbuild h⟩
  · next heq => exact ⟨fun hne => absurd hne heq, hbuild h⟩

section Prepared

variable {settled : Except KernelError Unit} {base current next : Snapshot M}
  {tx : Transaction M} {log : List LocalWrite} {commit : Commit} {relation : RelationId}

/-- The writes to a relation are its changes. -/
theorem changes_of_get? {overlay : RelationWriteOverlay M}
    (h : tx.writes.get? relation = some overlay) : tx.changes relation = overlay.entries := by
  rw [changes, h]
  rfl

theorem changes_of_get?_eq_none (h : tx.writes.get? relation = none) (t : Tuple) :
    (tx.changes relation).get? t = none := by
  rw [changes, h]
  rfl

/-- **The relations of the next snapshot**: an unwritten one is as it was, a written one has the
committed rows. -/
theorem prepare_rows (htracks : tx.Tracks base log) (hstored : current.Stored)
    (hfollows : base.Follows current) (h : tx.prepare settled current = .ok (next, commit)) :
    (∀ relation state, current.relations.get? relation = some state →
      ∃ state', next.relations.get? relation = some state' ∧ state'.Stored ∧
        state'.metadata = state.metadata ∧ (tx.writes.get? relation = none → state' = state) ∧
        ∀ t, t ∈ state'.rows ↔ CommittedRow (tx.changes relation).get? (base.Holds relation)
          (· ∈ state.rows) t) ∧
    ∀ relation, current.relations.get? relation = none → next.relations.get? relation = none := by
  obtain ⟨-, relations, changes, happly, -, rfl⟩ := prepare_eq_ok h
  rw [htracks.base_eq] at happly
  obtain ⟨hsame, hwritten⟩ := applyWrites_spec (tx.writes.sorted.imp ne_of_lt) happly
  have hunwritten : ∀ relation, tx.writes.get? relation = none →
      relations.get? relation = current.relations.get? relation := by
    intro relation hnone
    refine hsame relation fun e he heq => ?_
    have hget : tx.writes.get? e.1 = some e.2 := get?_eq_some.mpr he
    rw [heq, hnone] at hget
    cases hget
  constructor
  · intro relation state hstate
    cases hget : tx.writes.get? relation with
    | none =>
      refine ⟨state, (hunwritten relation hget).trans hstate, (hstored relation state hstate).1, rfl,
        fun _ => rfl, fun t => ?_⟩
      rw [CommittedRow, changes_of_get?_eq_none hget]
      simp
    | some overlay =>
      obtain ⟨state', baseState, hstate', hbase, hnext⟩ :=
        hwritten (relation, overlay) (get?_eq_some.mp hget)
      obtain rfl : state = state' := some.inj (hstate.symm.trans hstate')
      have hmeta : state.metadata = baseState.metadata := by
        obtain ⟨state'', hstate'', hmeta⟩ := hfollows.metadata_eq relation baseState hbase
        exact some.inj (hstate.symm.trans hstate'') ▸ hmeta
      have hok : ∀ e ∈ overlay.entries.list, state.metadata.validateTuple e.1 = .ok () := by
        intro e he
        have hchange : (tx.changes relation).get? e.1 = some e.2 := by
          rw [changes_of_get? hget]
          exact get?_eq_some.mpr he
        obtain ⟨checked, hchecked, hok⟩ :=
          htracks.checked relation e.1 e.2 (htracks.changes relation e.1 ▸ hchange)
        have hchecked := Snapshot.relation_eq_ok.mp hchecked
        obtain rfl : checked = baseState := some.inj (hchecked.symm.trans hbase)
        exact hmeta ▸ hok
      obtain ⟨hbuilt, hmeta', hrows⟩ := overlay.applyOrderedChanges_spec baseState
        (hstored relation state hstate).1 hok
      refine ⟨_, hnext, hbuilt, hmeta', nofun, fun t => ?_⟩
      rw [hrows, changes_of_get? hget, CommittedRow, CommittedRow, Snapshot.holds_iff hbase]
  · intro relation hnone
    rcases hget : tx.writes.get? relation with _ | overlay
    · exact (hunwritten relation hget).trans hnone
    obtain ⟨state', -, hstate', -⟩ :=
      hwritten (relation, overlay) (get?_eq_some.mp hget)
    cases hnone.symm.trans hstate'

theorem forM_eq_ok {α ε : Type} {f : α → Except ε Unit} : ∀ {l : List α},
    l.forM f = .ok () → ∀ a ∈ l, f a = .ok ()
  | [], _, a, ha => nomatch ha
  | b :: l, h, a, ha => by
    have h : (f b >>= fun _ => l.forM f) = .ok () := h
    rcases hb : f b with _ | u
    · rw [hb] at h
      cases h
    rw [hb] at h
    rcases mem_cons.mp ha with rfl | ha
    · exact hb
    · exact forM_eq_ok h a ha

/-- **At every written functional key base and current hold the same row.** -/
theorem prepare_agrees (hrun : Run base tx log) (hfollows : base.Follows current)
    (hbase : base.Stored) (hcurrent : current.Stored) (hfinds : base.FindsKeys)
    (hfinds' : current.FindsKeys) (hkeys : base.FunctionalKeys) (hkeys' : current.FunctionalKeys)
    (h : tx.prepare settled current = .ok (next, commit)) {state : RelationState M}
    {positions : List ℕ} (hstate : base.relations.get? relation = some state)
    (hpolicy : state.metadata.conflictPolicy = .functional positions) {t : Tuple}
    (ht : ((tx.changes relation).get? t).isSome) (u : Tuple)
    (hu : u.select positions = t.select positions) :
    current.Holds relation u ↔ base.Holds relation u := by
  have htracks := hrun.tracks
  by_cases hversion : current.version = base.version
  · rw [hfollows.eq_of_version hversion]
  have hvalid := (prepare_eq_ok h).1 (by rw [htracks.base_eq]; exact hversion)
  obtain ⟨state', hstate', hmeta⟩ := hfollows.metadata_eq relation state hstate
  have hpolicy' : state'.metadata.conflictPolicy = .functional positions := by rw [hmeta, hpolicy]
  have hlook := Snapshot.looksUp hbase hfinds hkeys hstate hpolicy
  have hlook' := Snapshot.looksUp hcurrent hfinds' hkeys' hstate' hpolicy'
  have hown := hrun.tracksKeys (Snapshot.relation_eq_ok.mpr hstate) hpolicy hlook
    (hkeys relation state positions hstate hpolicy)
  have hpos : ∀ p ∈ positions, p < state.metadata.arity := by
    have hkey := (validateMetadata_eq_ok.mp (hbase relation state hstate).1.valid.accepted).2
    rwa [hpolicy] at hkey
  rw [Snapshot.holds_iff hstate, Snapshot.holds_iff hstate']
  -- one tuple of the key with equal lookups is enough
  have hagree : ∀ r, r.length = state.metadata.arity → tupleKey positions r = tupleKey positions t →
      state.tupleForKey positions r = state'.tupleForKey positions r →
        (u ∈ state'.rows ↔ u ∈ state.rows) := by
    intro r hr hkey heq
    have hukey : tupleKey positions u = tupleKey positions r :=
      (TupleIndex.tupleKey_eq_iff.mpr hu).trans hkey.symm
    have hcur := hlook' r (hmeta ▸ hr) u
    rw [← heq, hlook r hr u] at hcur
    simpa [hukey] using hcur.symm
  rcases hoverlay : tx.writes.get? relation with _ | overlay
  · rw [changes_of_get?_eq_none hoverlay] at ht
    cases ht
  have hchecked := forM_eq_ok hvalid _ (get?_eq_some.mp hoverlay)
  unfold validateRelationConflicts at hchecked
  rw [htracks.base_eq, Snapshot.relation_eq_ok.mpr hstate,
    Snapshot.relation_eq_ok.mpr hstate'] at hchecked
  dsimp only at hchecked
  rw [hpolicy] at hchecked
  dsimp only at hchecked
  unfold validateFunctionalConflicts at hchecked
  split at hchecked
  · next visible hvisible =>
    split at hchecked
    · cases hchecked
    rename_i hnone
    have hshows := hown.shows visible hvisible
    obtain ⟨entry, hentry⟩ := Option.isSome_iff_exists.mp (hshows.touched t ht)
    obtain ⟨hlen, hkey⟩ := hshows.representative _ _ hentry
    refine hagree entry.representative hlen hkey ?_
    have hmem : entry ∈ visible.conflictEntries :=
      mem_map.mpr ⟨_, ByteMap.get_eq_some.mp hentry, rfl⟩
    simpa using find?_eq_none.mp hnone entry hmem
  · split at hchecked
    · cases hchecked
    rename_i hnone
    have htlen : t.length = state.metadata.arity := hown.length_eq t ht
    refine hagree t htlen rfl ?_
    obtain ⟨c, hc⟩ := Option.isSome_iff_exists.mp ht
    rw [changes_of_get? hoverlay, get?_eq_some] at hc
    obtain ⟨r, hr⟩ := RelationWriteOverlay.mem_touchedProjectedKeys positions hc
    have hsame := find?_eq_none.mp hnone _ hr
    rw [RelationState.tupleForProjectedKey_select hpos htlen,
      RelationState.tupleForProjectedKey_select (hmeta ▸ hpos) (hmeta ▸ htlen)] at hsame
    simpa using hsame

/-- **The next snapshot has one row for each functional key.** -/
theorem prepare_unique (hrun : Run base tx log) (hfollows : base.Follows current)
    (hbase : base.Stored) (hcurrent : current.Stored) (hfinds : base.FindsKeys)
    (hfinds' : current.FindsKeys) (hkeys : base.FunctionalKeys) (hkeys' : current.FunctionalKeys)
    (h : tx.prepare settled current = .ok (next, commit)) : next.FunctionalKeys := by
  have htracks := hrun.tracks
  obtain ⟨hrows, hnone⟩ := prepare_rows htracks hcurrent hfollows h
  intro relation next' positions hnext hpolicy t u ht hu hkey
  rcases hcur : current.relations.get? relation with _ | state'
  · cases (hnone relation hcur).symm.trans hnext
  obtain ⟨next'', hnext'', -, hmeta, -, hcommitted⟩ := hrows relation state' hcur
  obtain rfl : next' = next'' := some.inj (hnext.symm.trans hnext'')
  have hpolicy' : state'.metadata.conflictPolicy = .functional positions := hmeta ▸ hpolicy
  have hunique := hkeys' relation state' positions hcur hpolicy'
  rw [hcommitted] at ht hu
  by_cases htouched : ∃ w, ((tx.changes relation).get? w).isSome ∧
      w.select positions = t.select positions
  · -- a touched key: current holds what the base held, so the rows are the visible ones
    obtain ⟨w, hw, hwkey⟩ := htouched
    obtain ⟨c, hc⟩ := Option.isSome_iff_exists.mp hw
    obtain ⟨state, hstate, -⟩ := htracks.checked relation w c (htracks.changes relation w ▸ hc)
    have hstate := Snapshot.relation_eq_ok.mp hstate
    have hbasepolicy : state.metadata.conflictPolicy = .functional positions := by
      obtain ⟨state'', hstate'', hmeta'⟩ := hfollows.metadata_eq relation state hstate
      obtain rfl : state' = state'' := some.inj (hcur.symm.trans hstate'')
      rw [← hmeta', hpolicy']
    have hlook := Snapshot.looksUp hbase hfinds hkeys hstate hbasepolicy
    have hown := hrun.tracksKeys (Snapshot.relation_eq_ok.mpr hstate) hbasepolicy hlook
      (hkeys relation state positions hstate hbasepolicy)
    have hvisible : ∀ v, v.select positions = t.select positions →
        CommittedRow (tx.changes relation).get? (base.Holds relation) (· ∈ state'.rows) v →
          VisibleOver (· ∈ state.rows) (tx.changes relation).get? v := by
      intro v hv hcommit
      have hagree := prepare_agrees hrun hfollows hbase hcurrent hfinds hfinds' hkeys hkeys' h
        hstate hbasepolicy hw v (hv.trans hwkey.symm)
      rw [Snapshot.holds_iff hstate, Snapshot.holds_iff hcur] at hagree
      rw [CommittedRow, Snapshot.holds_iff hstate, hagree] at hcommit
      rcases hcommit with ⟨hrow, hnot⟩ | hassert
      · exact ⟨.inl hrow, fun hretract => hnot ⟨hretract, hrow⟩⟩
      · exact ⟨.inr hassert, fun hretract => nomatch hassert.symm.trans hretract⟩
    exact hown.unique t u (hvisible t rfl ht) (hvisible u hkey.symm hu) hkey
  · -- an untouched key: nothing has changed
    have hold : ∀ v, v.select positions = t.select positions →
        CommittedRow (tx.changes relation).get? (base.Holds relation) (· ∈ state'.rows) v →
          v ∈ state'.rows := by
      intro v hv hcommit
      rcases hcommit with ⟨hrow, -⟩ | hassert
      · exact hrow
      · exact absurd ⟨v, Option.isSome_iff_exists.mpr ⟨_, hassert⟩, hv⟩ htouched
    exact hunique t u (hold t rfl ht) (hold u hkey.symm hu) hkey

end Prepared

end Transaction

end Mica
