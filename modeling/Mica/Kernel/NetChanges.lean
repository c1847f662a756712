import Mica.Kernel.Commit

/-!
# Kernel/NetChanges — what the changes of a commit say

A commit lists the facts that it has added and those that it has removed, each once, in the order of
the relations and their tuples (`Transaction.prepare_netChanges`).
-/

open SortedList List SortedMap SortedSet

namespace Mica

/-- The order of the changes of a commit. -/
def FactChange.Before (c d : FactChange) : Prop :=
  c.relation < d.relation ∨ (c.relation = d.relation ∧ c.tuple < d.tuple)

/-- **The difference between two sets of facts**, as a list of changes. -/
structure NetChanges (before after : RelationId → Tuple → Prop)
    (changes : List FactChange) : Prop where
  assert_iff : ∀ relation t, ⟨relation, t, .assert⟩ ∈ changes ↔ ¬ before relation t ∧ after relation t
  retract_iff : ∀ relation t, ⟨relation, t, .retract⟩ ∈ changes ↔ before relation t ∧
    ¬ after relation t
  ordered : changes.Pairwise FactChange.Before

/-- A fact that no change is about. -/
theorem NetChanges.same {before after : RelationId → Tuple → Prop} {changes : List FactChange}
    (h : NetChanges before after changes) {relation : RelationId} {t : Tuple}
    (hnone : ∀ c ∈ changes, (c.relation, c.tuple) ≠ (relation, t)) :
    before relation t ↔ after relation t := by
  have hassert := mt (h.assert_iff relation t).mpr fun hmem => hnone _ hmem rfl
  have hretract := mt (h.retract_iff relation t).mpr fun hmem => hnone _ hmem rfl
  tauto

namespace RelationState

variable {M : Type → Type} [ByteMap M] {state : RelationState M}

/-- Whether a change took effect. -/
theorem applyChange_snd (baseContains : Tuple → Bool) (e : Tuple × FactChangeKind)
    (state : RelationState M) :
    (state.applyChange baseContains e).2 = true ↔
      ¬ (e.1 ∈ state.rows ↔ e.1 ∈ (state.applyChange baseContains e).1.rows) := by
  obtain ⟨t, kind⟩ := e
  unfold applyChange
  cases kind with
  | assert =>
    dsimp only
    rw [insert_snd, insert_rows, mem_insert]
    tauto
  | retract =>
    dsimp only
    split
    · rw [remove_snd, remove_rows, mem_erase]
      tauto
    · simp

theorem mem_applyChange_of_ne (baseContains : Tuple → Bool) {e : Tuple × FactChangeKind} {t : Tuple}
    (h : e.1 ≠ t) (state : RelationState M) :
    t ∈ (state.applyChange baseContains e).1.rows ↔ t ∈ state.rows := by
  rw [mem_applyChange]
  have hretract : e ≠ (t, .retract) := fun heq => h (by rw [heq])
  have hassert : e ≠ (t, .assert) := fun heq => h (by rw [heq])
  tauto

/-- A tuple that no change is about. -/
theorem mem_applyOrderedChanges_of_ne (baseContains : Tuple → Bool) {t : Tuple} :
    ∀ {changes : List (Tuple × FactChangeKind)} (state : RelationState M),
      (∀ e ∈ changes, e.1 ≠ t) →
      (t ∈ (state.applyOrderedChanges baseContains changes).1.rows ↔ t ∈ state.rows)
  | [], _, _ => Iff.rfl
  | e :: changes, state, h => by
    obtain ⟨he, hes⟩ := forall_mem_cons.mp h
    exact (mem_applyOrderedChanges_of_ne baseContains (state.applyChange baseContains e).1 hes).trans
      (mem_applyChange_of_ne baseContains he state)

/-- **The changes that took effect** are the difference. -/
theorem mem_applyOrderedChanges_changes (baseContains : Tuple → Bool) :
    ∀ {changes : List (Tuple × FactChangeKind)} (state : RelationState M),
      changes.Pairwise (fun e f => e.1 ≠ f.1) →
      (state.applyOrderedChanges baseContains changes).2.Sublist changes ∧
        ∀ t kind, (t, kind) ∈ (state.applyOrderedChanges baseContains changes).2 ↔
          (kind = .assert ∧ t ∉ state.rows ∧ t ∈
            (state.applyOrderedChanges baseContains changes).1.rows) ∨
          (kind = .retract ∧ t ∈ state.rows ∧
            t ∉ (state.applyOrderedChanges baseContains changes).1.rows)
  | [], state, _ => by
    refine ⟨List.Sublist.refl _, fun t kind => ?_⟩
    dsimp only [applyOrderedChanges]
    rw [mem_nil_iff, false_iff]
    tauto
  | e :: changes, state, h => by
    obtain ⟨hne, hrest⟩ := pairwise_cons.mp h
    obtain ⟨hsub, hmem⟩ := mem_applyOrderedChanges_changes baseContains
      (state.applyChange baseContains e).1 hrest
    have happlied := applyChange_snd baseContains e state
    have heffect := mem_applyChange baseContains e state e.1
    have hlater : e.1 ∈ ((state.applyChange baseContains e).1.applyOrderedChanges baseContains
        changes).1.rows ↔ e.1 ∈ (state.applyChange baseContains e).1.rows :=
      mem_applyOrderedChanges_of_ne baseContains _ fun f hf => (hne f hf).symm
    have hresult : state.applyOrderedChanges baseContains (e :: changes) =
        (((state.applyChange baseContains e).1.applyOrderedChanges baseContains changes).1,
          if (state.applyChange baseContains e).2 then
            e :: ((state.applyChange baseContains e).1.applyOrderedChanges baseContains changes).2
          else ((state.applyChange baseContains e).1.applyOrderedChanges baseContains changes).2) :=
            rfl
    rw [hresult]
    refine ⟨?_, fun t kind => ?_⟩
    · dsimp only
      split
      · exact hsub.cons_cons e
      · exact hsub.cons e
    dsimp only
    by_cases ht : t = e.1
    · -- this change decides, and no later one is about the tuple
      subst ht
      have hnot : (e.1, kind) ∉ ((state.applyChange baseContains e).1.applyOrderedChanges baseContains
          changes).2 := fun hin => hne _ (hsub.subset hin) rfl
      rw [hlater]
      obtain ⟨t, k⟩ := e
      dsimp only at happlied heffect hnot ⊢
      cases hb : (state.applyChange baseContains (t, k)).2 with
      | true =>
        rw [if_pos rfl, mem_cons, or_iff_left hnot, Prod.mk.injEq]
        have hchanged := happlied.mp hb
        cases k with
        | assert =>
          simp only [Prod.mk.injEq, reduceCtorEq, and_false] at heffect
          tauto
        | retract =>
          simp only [Prod.mk.injEq, reduceCtorEq, and_false] at heffect
          tauto
      | false =>
        rw [if_neg nofun]
        have hsame := not_not.mp (mt happlied.mpr (by rw [hb]; exact nofun))
        tauto
    · have hframe := mem_applyChange_of_ne baseContains (Ne.symm ht) state
      rw [← hframe, ← hmem]
      split
      · rw [mem_cons, or_iff_right fun heq => ht (congrArg Prod.fst heq)]
      · rfl

end RelationState

namespace RelationWriteOverlay

variable {M : Type → Type} [ByteMap M]

/-- **The changes of a written relation** are the difference, in the order of the tuples. -/
theorem mem_applyOrderedChanges_changes (overlay : RelationWriteOverlay M) {relation : RelationState M}
    (base : RelationState M) (h : relation.Stored)
    (hok : ∀ e ∈ overlay.entries.list, relation.metadata.validateTuple e.1 = .ok ()) :
    (overlay.applyOrderedChanges relation base).2.Pairwise (fun e f => e.1 < f.1) ∧
      ∀ t kind, (t, kind) ∈ (overlay.applyOrderedChanges relation base).2 ↔
        (kind = .assert ∧ t ∉ relation.rows ∧ t ∈ (overlay.applyOrderedChanges relation base).1.rows) ∨
        (kind = .retract ∧ t ∈ relation.rows ∧
          t ∉ (overlay.applyOrderedChanges relation base).1.rows) := by
  unfold applyOrderedChanges
  dsimp only
  split
  · next hbulk =>
    have hrows : ∀ t, t ∉ relation.rows := TupleStore.isEmpty_iff.mp hbulk.2.1
    have hlen : ∀ t ∈ overlay.entries.list.map Prod.fst, t.length = relation.metadata.arity := by
      intro t ht
      obtain ⟨e, he, rfl⟩ := mem_map.mp ht
      exact (RelationMetadata.validateTuple_eq_ok.mp (hok e he)).1
    obtain ⟨-, -, hload, hchanges⟩ := h.valid.applyOrderedAssertsToEmpty
      (ext_mem fun t => iff_of_false (hrows t) (notMem_empty t)) hlen
    rw [hchanges, hload]
    refine ⟨pairwise_map.mpr (SortedSet.sorted _), fun t kind => ?_⟩
    have hnot := hrows t
    rw [mem_map]
    constructor
    · rintro ⟨u, hu, heq⟩
      obtain ⟨rfl, rfl⟩ := Prod.mk.inj heq
      exact Or.inl ⟨rfl, hnot, hu⟩
    · rintro (⟨rfl, -, hmem⟩ | ⟨-, hmem, -⟩)
      · exact ⟨t, hmem, rfl⟩
      · exact absurd hmem hnot
  · obtain ⟨hsub, hmem⟩ := RelationState.mem_applyOrderedChanges_changes base.containsTuple relation
      (overlay.entries.sorted.imp ne_of_lt)
    exact ⟨overlay.entries.sorted.sublist hsub, hmem⟩

end RelationWriteOverlay

namespace Transaction

variable {M : Type → Type} [ByteMap M]

/-- The facts of a map of relations. -/
def HoldsIn (relations : SortedMap RelationId (RelationState M)) (relation : RelationId) (t : Tuple) :
    Prop :=
  ∃ state, relations.get? relation = some state ∧ t ∈ state.rows

theorem holdsIn_iff {relations : SortedMap RelationId (RelationState M)} {relation : RelationId}
    {state : RelationState M} (h : relations.get? relation = some state) (t : Tuple) :
    HoldsIn relations relation t ↔ t ∈ state.rows :=
  ⟨fun ⟨_, h', ht⟩ => Option.some.inj (h.symm.trans h') ▸ ht, fun ht => ⟨state, h, ht⟩⟩

theorem holdsIn_congr {relations relations' : SortedMap RelationId (RelationState M)}
    {relation : RelationId} (h : relations'.get? relation = relations.get? relation) (t : Tuple) :
    HoldsIn relations' relation t ↔ HoldsIn relations relation t := by
  unfold HoldsIn
  rw [h]

/-- **The changes of all written relations.** -/
theorem applyWrites_netChanges {base : Snapshot M} :
    ∀ {writes : List (RelationId × RelationWriteOverlay M)}
      {relations relations' : SortedMap RelationId (RelationState M)} {changes : List FactChange},
    writes.Pairwise (fun e f => e.1 < f.1) →
    (∀ e ∈ writes, ∀ state, relations.get? e.1 = some state → state.Stored ∧
      ∀ x ∈ e.2.entries.list, state.metadata.validateTuple x.1 = .ok ()) →
    applyWrites base writes relations = .ok (relations', changes) →
    NetChanges (HoldsIn relations) (HoldsIn relations') changes ∧
      ∀ c ∈ changes, ∃ e ∈ writes, e.1 = c.relation
  | [], relations, _, _, _, _, h => by
    obtain ⟨rfl, rfl⟩ := Prod.mk.inj (Except.ok.inj h)
    refine ⟨⟨fun r t => ?_, fun r t => ?_, List.Pairwise.nil⟩, nofun⟩
    · rw [mem_nil_iff, false_iff]
      tauto
    · rw [mem_nil_iff, false_iff]
      tauto
  | (relation, overlay) :: writes, relations, relations', changes, hsorted, hok, h => by
    obtain ⟨hlt, hsorted'⟩ := pairwise_cons.mp hsorted
    have hspec := applyWrites_spec (hsorted.imp ne_of_lt) h
    unfold applyWrites at h
    split at h
    · cases h
    · cases h
    · next state baseState hstate hbase =>
      dsimp only at h
      split at h
      · cases h
      rename_i relations'' rest hrest
      obtain ⟨rfl, rfl⟩ := Prod.mk.inj (Except.ok.inj h)
      obtain ⟨hstored, hvalid⟩ := hok _ mem_cons_self state hstate
      obtain ⟨hord, hmem⟩ := overlay.mem_applyOrderedChanges_changes baseState hstored hvalid
      obtain ⟨⟨hassert, hretract, hrestord⟩, hfrom⟩ := applyWrites_netChanges hsorted'
        (fun e he st hst => by
          rw [get?_insert_of_ne (hlt e he).ne'] at hst
          exact hok e (mem_cons_of_mem _ he) st hst) hrest
      have hlater : ∀ c ∈ rest, relation < c.relation := fun c hc => by
        obtain ⟨e, he, heq⟩ := hfrom c hc
        exact heq ▸ hlt e he
      obtain ⟨state', baseState', hstate', hbase', hnext⟩ := hspec.2 _ mem_cons_self
      obtain rfl := Option.some.inj (hstate.symm.trans hstate')
      obtain rfl := Option.some.inj ((Snapshot.relation_eq_ok.mp hbase).symm.trans hbase')
      -- the changes of one relation: those of this one, or those of the rest
      have hmine : ∀ r t kind, (⟨r, t, kind⟩ : FactChange) ∈
          (overlay.applyOrderedChanges state baseState).2.map (fun e => ⟨relation, e.1, e.2⟩) ++ rest ↔
          (r = relation ∧ (t, kind) ∈ (overlay.applyOrderedChanges state baseState).2) ∨
            (r ≠ relation ∧ (⟨r, t, kind⟩ : FactChange) ∈ rest) := by
        intro r t kind
        rw [mem_append, mem_map]
        refine or_congr ⟨?_, ?_⟩ ⟨fun hc => ⟨(hlater _ hc).ne', hc⟩, And.right⟩
        · rintro ⟨e, he, heq⟩
          obtain ⟨rfl, rfl, rfl⟩ := FactChange.mk.inj heq
          exact ⟨rfl, he⟩
        · rintro ⟨rfl, hc⟩
          exact ⟨_, hc, rfl⟩
      have hhere : ∀ t, HoldsIn relations'' relation t ↔
          t ∈ (overlay.applyOrderedChanges state baseState).1.rows := holdsIn_iff hnext
      have hframe : ∀ r, r ≠ relation → ∀ t, HoldsIn (relations.insert relation
          (overlay.applyOrderedChanges state baseState).1) r t ↔ HoldsIn relations r t := fun r hr =>
        holdsIn_congr (get?_insert_of_ne hr)
      refine ⟨⟨fun r t => ?_, fun r t => ?_, ?_⟩, fun c hc => ?_⟩
      · rw [hmine]
        by_cases hr : r = relation
        · subst hr
          rw [hmem, hhere, holdsIn_iff hstate]
          simp
        · rw [hassert, hframe r hr]
          simp [hr]
      · rw [hmine]
        by_cases hr : r = relation
        · subst hr
          rw [hmem, hhere, holdsIn_iff hstate]
          simp
        · rw [hretract, hframe r hr]
          simp [hr]
      · refine pairwise_append.mpr ⟨pairwise_map.mpr (hord.imp fun hlt => Or.inr ⟨rfl, hlt⟩),
          hrestord, fun c hc d hd => Or.inl ?_⟩
        obtain ⟨e, -, rfl⟩ := mem_map.mp hc
        exact hlater d hd
      · rcases mem_append.mp hc with hc | hc
        · obtain ⟨e, -, rfl⟩ := mem_map.mp hc
          exact ⟨_, mem_cons_self, rfl⟩
        · obtain ⟨e, he, heq⟩ := hfrom c hc
          exact ⟨e, mem_cons_of_mem _ he, heq⟩

/-- **The changes of a commit are what it has changed.** -/
theorem prepare_netChanges {settled : Except KernelError Unit} {base current next : Snapshot M}
    {tx : Transaction M} {log : List LocalWrite} {commit : Commit} (htracks : tx.Tracks base log)
    (hstored : current.Stored) (hfollows : base.Follows current)
    (h : tx.prepare settled current = .ok (next, commit)) :
    NetChanges current.Holds next.Holds commit.changes := by
  obtain ⟨-, relations, changes, happly, rfl, rfl⟩ := prepare_eq_ok h
  refine (applyWrites_netChanges tx.writes.sorted (fun e he state hstate => ?_) happly).1
  refine ⟨(hstored e.1 state hstate).1, fun x hx => ?_⟩
  have hget : tx.writes.get? e.1 = some e.2 := get?_eq_some.mpr he
  have hchange : (tx.changes e.1).get? x.1 = some x.2 := by
    rw [changes_of_get? hget]
    exact get?_eq_some.mpr hx
  obtain ⟨checked, hchecked, hvalid⟩ :=
    htracks.checked e.1 x.1 x.2 (htracks.changes e.1 x.1 ▸ hchange)
  obtain ⟨state', hstate', hmeta⟩ :=
    hfollows.metadata_eq e.1 checked (Snapshot.relation_eq_ok.mp hchecked)
  obtain rfl := Option.some.inj (hstate.symm.trans hstate')
  rwa [hmeta]

end Transaction

end Mica
