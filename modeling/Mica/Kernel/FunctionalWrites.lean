import Mica.Kernel.KeyLookup
import Mica.Kernel.Transaction

/-!
# Kernel/FunctionalWrites — one visible tuple for each key

An assertion into a functional relation is refused while another tuple of its key is visible.  The
transaction answers that question from a map of the visible tuples at the keys it has touched, which
it builds at the first assertion and keeps up to date from then on.

* `FunctionalVisibleMap.Shows` — what the map holds: at every touched key the visible tuple.
* `Run.tracksKeys` — every run keeps it, and keeps the visible tuples of a key down to one.
-/

open OrderCode SortedList SortedMap Function
open Option (some.inj)

namespace Mica

/-- The tuples visible over some rows: asserted, or there and not retracted. -/
def VisibleOver (rows : Tuple → Prop) (changes : Tuple → Option LocalChange) (t : Tuple) : Prop :=
  (rows t ∨ changes t = some .assert) ∧ changes t ≠ some .retract

/-- The changes after one more. -/
def noteChange (changes : Tuple → Option LocalChange) (e : Tuple × LocalChange) :
    Tuple → Option LocalChange := Function.update changes e.1 (some e.2)

theorem visibleOver_update_self {rows : Tuple → Prop} {changes : Tuple → Option LocalChange}
    {t : Tuple} {c : LocalChange} :
    VisibleOver rows (Function.update changes t (some c)) t ↔ c = .assert := by
  rw [VisibleOver, update_self]
  cases c with
  | assert => simp
  | retract => simp

theorem visibleOver_update_of_ne {rows : Tuple → Prop} {changes : Tuple → Option LocalChange}
    {t u : Tuple} {c : LocalChange} (h : u ≠ t) :
    VisibleOver rows (Function.update changes t (some c)) u ↔ VisibleOver rows changes u := by
  rw [VisibleOver, VisibleOver, update_of_ne h]

namespace FunctionalVisibleMap

variable {M : Type → Type} [ByteMap M]

/-- **What the map of visible tuples shows**: an entry for every touched key, with a tuple of the key
and the visible one. -/
structure Shows (positions : List ℕ) (arity : ℕ) (rows : Tuple → Prop)
    (changes : Tuple → Option LocalChange) (visible : FunctionalVisibleMap M) : Prop where
  positions_eq : visible.positions = positions
  touched : ∀ t, (changes t).isSome → (ByteMap.get (tupleKey positions t) visible.tuples).isSome
  representative : ∀ key entry, ByteMap.get key visible.tuples = some entry →
    entry.representative.length = arity ∧ tupleKey positions entry.representative = key
  tuple : ∀ key entry, ByteMap.get key visible.tuples = some entry → ∀ u, entry.tuple = some u ↔
    VisibleOver rows changes u ∧ tupleKey positions u = key

variable {positions : List ℕ} {arity : ℕ} {rows : Tuple → Prop}
  {changes : Tuple → Option LocalChange} {visible : FunctionalVisibleMap M} {t : Tuple}
  {c : LocalChange} {baseCurrent : Option Tuple}

theorem shows_new : (new positions : FunctionalVisibleMap M).Shows positions arity rows
    fun _ => none := by
  have hnone : ∀ key, ByteMap.get key (new positions : FunctionalVisibleMap M).tuples = none :=
    fun key => ByteMap.get_eq_none.mpr fun hmem => by
      rw [new, ByteMap.keys, ByteMap.entries_empty] at hmem
      cases hmem
  refine ⟨rfl, fun _ h => Bool.noConfusion h, fun key entry h => ?_, fun key entry h => ?_⟩
  · cases (hnone key).symm.trans h
  · cases (hnone key).symm.trans h

/-- At a key that is not tracked nothing has changed. -/
theorem Shows.visible_of_untracked (h : visible.Shows positions arity rows changes)
    (hnone : ByteMap.get (tupleKey positions t) visible.tuples = none) (u : Tuple) :
    VisibleOver rows changes u ∧ tupleKey positions u = tupleKey positions t ↔
      rows u ∧ tupleKey positions u = tupleKey positions t := by
  refine and_congr_left fun hkey => ?_
  have hu : changes u = none := Option.not_isSome_iff_eq_none.mp fun hsome => by
    have htracked := h.touched u hsome
    rw [hkey, hnone] at htracked
    cases htracked
  rw [VisibleOver, hu]
  simp

/-- The visible tuple of a key after a change to it. -/
theorem visibleAfterChange_spec {current : Option Tuple}
    (hassert : c = .assert → ∀ u, VisibleOver rows changes u →
      tupleKey positions u = tupleKey positions t → u = t)
    (hretract : c = .retract → ∀ u, current = some u ↔
      VisibleOver rows changes u ∧ tupleKey positions u = tupleKey positions t) (u : Tuple) :
    visibleAfterChange current t c = some u ↔
      VisibleOver rows (Function.update changes t (some c)) u ∧
        tupleKey positions u = tupleKey positions t := by
  by_cases hu : u = t
  · subst hu
    rw [visibleOver_update_self, and_iff_left rfl]
    cases c with
    | assert => simp [visibleAfterChange]
    | retract =>
      simp only [visibleAfterChange, reduceCtorEq, iff_false]
      split
      · exact nofun
      · next hne => exact hne
  · rw [visibleOver_update_of_ne hu]
    cases c with
    | assert =>
      refine iff_of_false (fun h => hu (some.inj h).symm) fun h => hu ?_
      exact hassert rfl u h.1 h.2
    | retract =>
      rw [← hretract rfl u, visibleAfterChange]
      split
      · next hcurrent =>
        rw [hcurrent]
        exact iff_of_false nofun fun h => hu (some.inj h).symm
      · rfl

/-- **One recorded change.**  An assertion comes with no other visible tuple of the key; a retraction
of an untracked key with the base row of the key. -/
theorem Shows.recordChange (h : visible.Shows positions arity rows changes) (ht : t.length = arity)
    (hassert : c = .assert → ∀ u, VisibleOver rows changes u →
      tupleKey positions u = tupleKey positions t → u = t)
    (hretract : c = .retract → ByteMap.get (tupleKey positions t) visible.tuples = none →
      ∀ u, baseCurrent = some u ↔ rows u ∧ tupleKey positions u = tupleKey positions t) :
    (visible.recordChange t c baseCurrent).Shows positions arity rows
      (Function.update changes t (some c)) := by
  obtain rfl := h.positions_eq
  -- the entry that is written
  obtain ⟨entry, hrecord, hlen, hkey, htuple⟩ : ∃ entry,
      visible.recordChange t c baseCurrent = { visible with
        tuples := ByteMap.insert (tupleKey visible.positions t) entry visible.tuples } ∧
      entry.representative.length = arity ∧
      tupleKey visible.positions entry.representative = tupleKey visible.positions t ∧
      ∀ u, entry.tuple = some u ↔ VisibleOver rows (Function.update changes t (some c)) u ∧
        tupleKey visible.positions u = tupleKey visible.positions t := by
    unfold FunctionalVisibleMap.recordChange
    dsimp only
    split
    · next hget =>
      refine ⟨_, rfl, ht, rfl, visibleAfterChange_spec hassert fun hc u => ?_⟩
      exact (hretract hc hget u).trans (h.visible_of_untracked hget u).symm
    · next entry hget =>
      obtain ⟨hlen, hkey⟩ := h.representative _ _ hget
      exact ⟨_, rfl, hlen, hkey, visibleAfterChange_spec hassert fun _ => h.tuple _ _ hget⟩
  rw [hrecord]
  have hget : ∀ key, ByteMap.get key
      (ByteMap.insert (tupleKey visible.positions t) entry visible.tuples) =
        if key = tupleKey visible.positions t then some entry
        else ByteMap.get key visible.tuples := by
    intro key
    split
    · next heq => rw [heq, ByteMap.get_insert_self]
    · next hne => exact ByteMap.get_insert_of_ne hne _
  refine ⟨rfl, fun u hu => ?_, fun key e he => ?_, fun key e he => ?_⟩
  · rw [hget]
    split
    · rfl
    · next hne =>
      refine h.touched u ?_
      rwa [update_of_ne fun hut => hne (congrArg _ hut)] at hu
  · rw [hget] at he
    split at he
    · next heq =>
      obtain rfl := some.inj he
      exact ⟨hlen, hkey.trans heq.symm⟩
    · exact h.representative key e he
  · rw [hget] at he
    split at he
    · next heq =>
      obtain rfl := some.inj he
      rwa [heq]
    rename_i hne
    intro u
    rw [h.tuple key e he]
    refine and_congr_left fun hu => ?_
    rw [visibleOver_update_of_ne fun hut => hne (hu.symm.trans (congrArg _ hut))]

/-- The map that the first assertion builds, from retractions only. -/
theorem shows_fromWrites {writes : SortedMap Tuple LocalChange}
    {baseTupleForKey : Tuple → Option Tuple}
    (hwrites : ∀ e ∈ writes.list, e.2 = .retract ∧ e.1.length = arity)
    (hbase : ∀ t, t.length = arity → ∀ u, baseTupleForKey t = some u ↔
      rows u ∧ tupleKey positions u = tupleKey positions t) :
    (fromWrites positions writes.list baseTupleForKey : FunctionalVisibleMap M).Shows positions
      arity rows writes.get? := by
  have hfold : ∀ (es : List (Tuple × LocalChange)) (changes : Tuple → Option LocalChange)
      (visible : FunctionalVisibleMap M), (∀ e ∈ es, e.2 = .retract ∧ e.1.length = arity) →
      visible.Shows positions arity rows changes →
      (es.foldl (fun visible e => visible.recordChange e.1 e.2 (baseTupleForKey e.1))
        visible).Shows positions arity rows
          (es.foldl noteChange changes) := by
    intro es
    induction es with
    | nil => exact fun _ _ _ h => h
    | cons e es ih =>
      intro changes visible hes h
      obtain ⟨⟨hretract, hlen⟩, hes⟩ := List.forall_mem_cons.mp hes
      refine ih _ _ hes (h.recordChange hlen (fun hc => ?_) fun _ _ => hbase e.1 hlen)
      cases hc.symm.trans hretract
  have hget : ∀ (es : List (Tuple × LocalChange)) (changes : Tuple → Option LocalChange),
      (es.Pairwise fun e f => e.1 < f.1) → (∀ e ∈ es, changes e.1 = none) → ∀ t c,
      es.foldl noteChange changes t = some c ↔
        (t, c) ∈ es ∨ changes t = some c := by
    intro es
    induction es with
    | nil => simp
    | cons e es ih =>
      intro changes hes hnone t c
      obtain ⟨he, hes⟩ := List.pairwise_cons.mp hes
      obtain ⟨hnone, hnones⟩ := List.forall_mem_cons.mp hnone
      have hne : ∀ f ∈ es, noteChange changes e f.1 = none := fun f hf => by
        rw [noteChange, update_of_ne (he f hf).ne', hnones f hf]
      rw [List.foldl_cons, ih _ hes hne, List.mem_cons, noteChange]
      by_cases het : t = e.1
      · subst het
        rw [update_self, hnone, Option.some.injEq, Prod.ext_iff]
        simp [eq_comm, or_comm]
      · rw [update_of_ne het, Prod.ext_iff]
        simp [het]
  have hshows := hfold writes.list (fun _ => none) (new positions) hwrites shows_new
  have heq : writes.list.foldl noteChange (fun _ => none) = writes.get? := by
    funext t
    refine Option.ext fun c => ?_
    rw [hget writes.list _ writes.sorted (fun _ _ => rfl), get?_eq_some]
    simp
  rwa [heq] at hshows

end FunctionalVisibleMap

/-! ## Runs -/

namespace Transaction

variable {M : Type → Type} [ByteMap M]

/-- **What a transaction keeps of a functional relation**: one visible tuple for each key, and the
map that shows it; without the map nothing has been asserted. -/
structure TracksKeys (relation : RelationId) (positions : List ℕ) (arity : ℕ)
    (rows : Tuple → Prop) (tx : Transaction M) : Prop where
  unique : UniqueKeys positions (VisibleOver rows (tx.changes relation).get?)
  length_eq : ∀ t, ((tx.changes relation).get? t).isSome → t.length = arity
  retracts : tx.functionalVisible.get? relation = none →
    ∀ t, (tx.changes relation).get? t ≠ some .assert
  shows : ∀ visible, tx.functionalVisible.get? relation = some visible →
    visible.Shows positions arity rows (tx.changes relation).get?

section Keys

variable {relation : RelationId} {positions : List ℕ} {state : RelationState M}
  {tx : Transaction M} {t : Tuple} {c : LocalChange}

variable {rows : Tuple → Prop}

/-- Only the changes and the map of the relation matter. -/
theorem TracksKeys.congr {arity : ℕ}
    (h : tx.TracksKeys relation positions arity rows) {tx' : Transaction M}
    (hchanges : tx'.changes relation = tx.changes relation)
    (hvisible : tx'.functionalVisible.get? relation = tx.functionalVisible.get? relation) :
    tx'.TracksKeys relation positions arity rows := by
  obtain ⟨hunique, hlen, hretracts, hshows⟩ := h
  rw [← hchanges] at hunique hlen hretracts hshows
  rw [← hvisible] at hretracts hshows
  exact ⟨hunique, hlen, hretracts, hshows⟩

/-- The row lookup of a base state, in terms of key bytes. -/
def LooksUp (positions : List ℕ) (state : RelationState M) : Prop :=
  ∀ t, t.length = state.metadata.arity → ∀ u, state.tupleForKey positions t = some u ↔
    u ∈ state.rows ∧ tupleKey positions u = tupleKey positions t

theorem looksUp_of_unique (h : state.Valid)
    (hpolicy : state.metadata.conflictPolicy = .functional positions)
    (hfinds : state.metadata.FindsKeys positions)
    (hunique : UniqueKeys positions (· ∈ state.rows)) : LooksUp positions state := by
  intro t ht u
  have hpos : ∀ p ∈ positions, p < state.metadata.arity := by
    have hkey := (validateMetadata_eq_ok.mp h.accepted).2
    rwa [hpolicy] at hkey
  rw [h.tupleForKey_eq_some hpos hfinds ht hunique, TupleIndex.tupleKey_eq_iff]

/-- **A lookup answers with the visible tuple of the key.** -/
theorem TracksKeys.visibleTupleForKey
    (h : tx.TracksKeys relation positions state.metadata.arity (· ∈ state.rows))
    (hlook : LooksUp positions state) (t : Tuple) :
    (tx.visibleTupleForKey relation state positions t).1.TracksKeys relation positions
        state.metadata.arity (· ∈ state.rows) ∧
      ((tx.visibleTupleForKey relation state positions t).1.functionalVisible.get?
        relation).isSome ∧
      (t.length = state.metadata.arity → ∀ u,
        (tx.visibleTupleForKey relation state positions t).2 = some u ↔
        VisibleOver (· ∈ state.rows) (tx.changes relation).get? u ∧
          tupleKey positions u = tupleKey positions t) := by
  obtain ⟨visible, hvisible, hshows⟩ : ∃ visible : FunctionalVisibleMap M,
      (tx.functionalVisible.get? relation).getD
        (FunctionalVisibleMap.fromWrites positions (tx.changes relation).list
          (state.tupleForKey positions)) = visible ∧
      visible.Shows positions state.metadata.arity (· ∈ state.rows)
        (tx.changes relation).get? := by
    cases hget : tx.functionalVisible.get? relation with
    | some visible => exact ⟨visible, rfl, h.shows visible hget⟩
    | none =>
      refine ⟨_, rfl, FunctionalVisibleMap.shows_fromWrites (fun e he => ?_) hlook⟩
      have hchange : (tx.changes relation).get? e.1 = some e.2 := get?_eq_some.mpr he
      refine ⟨(FactChangeKind.eq_assert_or_retract e.2).resolve_left fun hassert => ?_,
        h.length_eq e.1 (Option.isSome_iff_exists.mpr ⟨_, hchange⟩)⟩
      exact h.retracts hget e.1 (hassert ▸ hchange)
  unfold Transaction.visibleTupleForKey
  rw [hvisible]
  dsimp only
  refine ⟨⟨h.unique, h.length_eq, fun hnone => ?_, fun visible' hget => ?_⟩, ?_, fun ht u => ?_⟩
  · rw [get?_insert_self] at hnone
    cases hnone
  · rw [get?_insert_self] at hget
    exact some.inj hget ▸ hshows
  · rw [get?_insert_self]
    rfl
  · rw [FunctionalVisibleMap.trackedTuple, hshows.positions_eq]
    rcases hget : ByteMap.get (tupleKey positions t) visible.tuples with _ | entry
    · exact (hlook t ht u).trans (hshows.visible_of_untracked hget u).symm
    exact hshows.tuple _ _ hget u

/-- **A recorded change keeps the visible tuples of a key down to one**, if an assertion comes after
a lookup that found no other tuple. -/
theorem TracksKeys.record
    (h : tx.TracksKeys relation positions state.metadata.arity (· ∈ state.rows))
    (hlook : LooksUp positions state) (ht : t.length = state.metadata.arity)
    (hassert : c = .assert → (tx.functionalVisible.get? relation).isSome ∧
      ∀ u, VisibleOver (· ∈ state.rows) (tx.changes relation).get? u →
        tupleKey positions u = tupleKey positions t → u = t) :
    (tx.record relation state t c).TracksKeys relation positions state.metadata.arity
      (· ∈ state.rows) := by
  have hchanges : ((tx.record relation state t c).changes relation).get? =
      Function.update (tx.changes relation).get? t (some c) := by
    funext u
    rw [changes_record, if_pos rfl, get?_insert]
    by_cases hut : u = t
    · rw [hut, if_pos rfl, update_self]
    · rw [if_neg hut, update_of_ne hut]
  have hvisible : (tx.record relation state t c).functionalVisible.get? relation =
      (tx.functionalVisible.get? relation).map fun visible =>
        visible.recordChangeWithBaseLookup t c fun positions => state.tupleForKey positions t := by
    unfold Transaction.record
    dsimp only
    rcases hget : tx.functionalVisible.get? relation with _ | visible
    · exact hget
    exact get?_insert_self
  refine ⟨?_, fun u hu => ?_, fun hnone u => ?_, fun visible' hvisible' => ?_⟩
  · rw [hchanges]
    have hother : ∀ u v, VisibleOver (· ∈ state.rows) (Function.update
        (tx.changes relation).get? t (some c)) u → VisibleOver (· ∈ state.rows)
          (tx.changes relation).get? v → u.select positions = v.select positions → u = t → v = t := by
      rintro u v hu hv hkey rfl
      exact (hassert (visibleOver_update_self.mp hu)).2 v hv
        (TupleIndex.tupleKey_eq_iff.mpr hkey.symm)
    intro u v hu hv hkey
    by_cases hut : u = t
    · by_cases hvt : v = t
      · exact hut.trans hvt.symm
      · exact hut.trans (hother u v hu ((visibleOver_update_of_ne hvt).mp hv) hkey hut).symm
    · have hu' := (visibleOver_update_of_ne hut).mp hu
      by_cases hvt : v = t
      · exact absurd (hother v u hv hu' hkey.symm hvt) hut
      · exact h.unique u v hu' ((visibleOver_update_of_ne hvt).mp hv) hkey
  · have hchange := congrFun hchanges u
    rw [hchange] at hu
    by_cases hut : u = t
    · exact hut ▸ ht
    · rw [update_of_ne hut] at hu
      exact h.length_eq u hu
  · have hchange := congrFun hchanges u
    rw [hvisible, Option.map_eq_none_iff] at hnone
    rw [hchange]
    by_cases hut : u = t
    · rw [hut, update_self]
      intro hc
      have hsome := (hassert (some.inj hc)).1
      rw [hnone] at hsome
      cases hsome
    · rw [update_of_ne hut]
      exact h.retracts hnone u
  · rw [hchanges]
    rw [hvisible, Option.map_eq_some_iff] at hvisible'
    obtain ⟨visible, hget, rfl⟩ := hvisible'
    have hshows := h.shows visible hget
    refine hshows.recordChange ht (fun hc => (hassert hc).2) fun hc hnone u => ?_
    subst hc
    rw [hshows.positions_eq, hnone]
    exact hlook t ht u

/-- A write to another relation changes nothing here. -/
theorem TracksKeys.record_of_ne {arity : ℕ}
    (h : tx.TracksKeys relation positions arity rows) {relation' : RelationId}
    (hne : relation ≠ relation') {state' : RelationState M} :
    (tx.record relation' state' t c).TracksKeys relation positions arity rows := by
  refine h.congr ?_ ?_
  · rw [changes_record, if_neg hne]
  unfold Transaction.record
  dsimp only
  split
  · rfl
  · rw [get?_insert_of_ne hne]

theorem TracksKeys.visibleTupleForKey_of_ne {arity : ℕ}
    (h : tx.TracksKeys relation positions arity rows) {relation' : RelationId}
    (hne : relation ≠ relation') {state' : RelationState M} {positions' : List ℕ} :
    (tx.visibleTupleForKey relation' state' positions' t).1.TracksKeys relation positions arity
      rows :=
  h.congr rfl (get?_insert_of_ne hne)

/-- A write to a functional relation, or to another one. -/
theorem TracksKeys.applyLocalChange
    (h : tx.TracksKeys relation positions state.metadata.arity (· ∈ state.rows))
    (hstate : tx.base.relation relation = .ok state)
    (hpolicy : state.metadata.conflictPolicy = .functional positions)
    (hlook : LooksUp positions state) (relation' : RelationId) (t : Tuple) (c : LocalChange) :
    (tx.applyLocalChange relation' t c).1.TracksKeys relation positions state.metadata.arity
      (· ∈ state.rows) := by
  rcases tx.applyLocalChange_cases relation' t c with ⟨e, he⟩ | ⟨state', hstate', hok, hcase⟩
  · rwa [he]
  by_cases hne : relation = relation'
  · subst hne
    obtain rfl : state = state' := Except.ok.inj (hstate.symm.trans hstate')
    have ht : t.length = state.metadata.arity := (RelationMetadata.validateTuple_eq_ok.mp hok).1
    rcases hcase with ⟨positions', tx', found, hc, hpolicy', hfound, hcase⟩ | ⟨hc, hrec⟩
    · obtain rfl : positions = positions' := by
        rw [hpolicy] at hpolicy'
        exact ConflictPolicy.functional.inj hpolicy'
      obtain ⟨htracks, hsome, hvisible⟩ := h.visibleTupleForKey hlook t
      have hvisible := hvisible ht
      rw [hfound] at htracks hsome hvisible
      rcases hcase with ⟨existing, -, -, hres⟩ | ⟨hsame, hres⟩
      · rwa [hres]
      rw [hres]
      refine htracks.record hlook ht fun _ => ⟨hsome, fun u hu hkey => ?_⟩
      have hchanges : tx'.changes relation = tx.changes relation :=
        congrArg (fun r => r.1.changes relation) hfound.symm
      rw [hchanges] at hu
      exact hsame u ((hvisible u).mpr ⟨hu, hkey⟩)
    · rw [hrec]
      refine h.record hlook ht fun hassert => ?_
      rcases hc with hc | hc
      · cases hassert.symm.trans hc
      · exact absurd hpolicy (hc positions)
  · rcases hcase with ⟨positions', tx', found, hc, hpolicy', hfound, hcase⟩ | ⟨hc, hrec⟩
    · have htracks : (tx.visibleTupleForKey relation' state' positions' t).1.TracksKeys relation
          positions state.metadata.arity (· ∈ state.rows) := h.visibleTupleForKey_of_ne hne
      rw [hfound] at htracks
      rcases hcase with ⟨existing, -, -, hres⟩ | ⟨-, hres⟩
      · rwa [hres]
      · rw [hres]
        exact htracks.record_of_ne hne
    · rw [hrec]
      exact h.record_of_ne hne

theorem TracksKeys.scan {arity : ℕ}
    (h : tx.TracksKeys relation positions arity rows) {base : Snapshot M} {log : List LocalWrite}
    (htracks : tx.Tracks base log) (derived : Except KernelError (Option (RelationState M)))
    (relation' : RelationId) (bindings : Bindings) :
    (tx.scan derived relation' bindings).1.TracksKeys relation positions arity rows := by
  refine h.congr ?_ ?_
  · refine ext_get? fun u => ?_
    rw [(htracks.scan derived relation' bindings).changes, htracks.changes]
  unfold Transaction.scan Transaction.scanExtensionalRows
  split_ifs
  · rfl
  · rfl
  · dsimp only
    split
    · rfl
    · rfl
    · split
      · rfl
      · rfl

variable {base : Snapshot M} {log : List LocalWrite}

/-- **Every run keeps at most one visible tuple for each key**, over a base that has one. -/
theorem Run.tracksKeys (h : Run base tx log) (hstate : base.relation relation = .ok state)
    (hpolicy : state.metadata.conflictPolicy = .functional positions)
    (hlook : LooksUp positions state) (hunique : UniqueKeys positions (· ∈ state.rows)) :
    tx.TracksKeys relation positions state.metadata.arity (· ∈ state.rows) := by
  induction h with
  | new =>
    refine ⟨fun t u ht hu => hunique t u ?_ ?_, fun t ht => ?_, fun _ t ht => ?_, fun _ h => ?_⟩
    · exact ht.1.resolve_right nofun
    · exact hu.1.resolve_right nofun
    · cases ht
    · cases ht
    · cases h
  | @wrote tx tx' _ relation' t c hrun hok ih =>
    have hstep := ih.applyLocalChange (hrun.tracks.base_eq ▸ hstate) hpolicy hlook relation' t c
    rwa [hok] at hstep
  | @refused tx tx' _ relation' t c _ hrun herr ih =>
    have hstep := ih.applyLocalChange (hrun.tracks.base_eq ▸ hstate) hpolicy hlook relation' t c
    rwa [herr] at hstep
  | @lookedUp tx _ relation' state' positions' t hrun hstate' hpolicy' ih =>
    by_cases hne : relation = relation'
    · subst hne
      obtain rfl : state = state' := Except.ok.inj (hstate.symm.trans hstate')
      obtain rfl : positions = positions' :=
        ConflictPolicy.functional.inj (hpolicy.symm.trans hpolicy')
      exact (ih.visibleTupleForKey hlook t).1
    · exact ih.visibleTupleForKey_of_ne hne
  | read hrun ih => exact ih.scan hrun.tracks _ _ _

end Keys

end Transaction

end Mica
