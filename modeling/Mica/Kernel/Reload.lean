import Mica.Kernel.LogReplay

/-!
# Kernel/Reload — loading the log of a live kernel

A log that replays is loaded once the catalogue is checked and the buffers are restored.  A volatile
buffer comes back under the next revision, which is a number of 64 bits.

* `RootSystem.log_replays_to_live` — over every run whose buffers have a next revision, the loaded
  kernel has the live durable state.
-/

open SortedList List SortedMap

namespace Mica

section Load

variable {M : Type → Type} [ByteMap M]

/-! ## Buffers that come back -/

/-- What a mirror of a live buffer persists is accepted again. -/
theorem BufferState.Mirrors.isInvalid_persisted {p l : BufferState} (h : p.Mirrors l) :
    p.persisted.isInvalid = false := by
  have htext : l.text.toText = [] → p.text.toText = [] := by
    intro hl
    rcases l.metadata.durability.eq_durable_or_volatile with hd | hv
    · exact (h.durable hd).2.symm.trans hl
    · exact (h.volatile hv).1
  have hzero : p.revision = 0 → p.text.toText = [] ∧ p.deleted = false := by
    intro hp
    have hl : l.revision = 0 := by
      rcases l.metadata.durability.eq_durable_or_volatile with hd | hv
      · exact (h.durable hd).1.trans hp
      · rcases (h.volatile hv).2 with heq | ⟨-, hne, -⟩
        · exact heq.trans hp
        · exact absurd hp hne
    obtain ⟨hempty, hkept⟩ := h.plain.zero hl
    exact ⟨htext hempty, h.deleted.symm.trans hkept⟩
  have hgone : p.deleted = true → p.text.toText = [] := fun hp =>
    htext (h.plain.deleted (h.deleted.trans hp))
  unfold PersistedBufferState.isInvalid BufferState.persisted
  simp only [Bool.or_eq_false_iff, Bool.and_eq_false_iff, decide_eq_false_iff_not, not_not]
  refine ⟨?_, ?_⟩
  · by_cases hp : p.revision = 0
    · exact .inr (hzero hp)
    · exact .inl hp
  · cases hdeleted : p.deleted with
    | false => exact .inl rfl
    | true => exact .inr (hgone hdeleted)

namespace BufferStates

/-- A volatile buffer that comes back needs a revision after its last one. -/
theorem restored_ok (supply : Supply) {record : PersistedBufferState}
    (hnext : record.metadata.durability = .volatile → record.deleted = false →
      record.revision + 1 < 2 ^ 64) : ∃ result, record.restored supply = .ok result := by
  unfold PersistedBufferState.restored
  split
  · next hlost =>
    have hadd : Materializing.checkedAdd record.revision 1 = some (record.revision + 1) :=
      if_pos (hnext hlost.1 hlost.2.1)
    rw [hadd]
    exact ⟨_, rfl⟩
  · exact ⟨_, rfl⟩

/-- **Records of different buffers under different names come back.** -/
theorem restoreFrom_ok (supply : Supply) : ∀ {records : List PersistedBufferState}
    {states : BufferStates}, states.Tidy →
    (records.map fun record => record.metadata.id).Nodup →
    (records.map fun record => record.metadata.name).Nodup →
    (∀ record ∈ records, states.get? record.metadata.id = none ∧
      states.named record.metadata.name = none ∧ record.isInvalid = false ∧
      (record.metadata.durability = .volatile → record.deleted = false →
        record.revision + 1 < 2 ^ 64)) →
    ∃ restored, states.restoreFrom supply records = .ok restored
  | [], states, _, _, _, _ => ⟨states, rfl⟩
  | record :: records, states, htidy, hids, hnames, hrecords => by
    obtain ⟨⟨hnone, hname, hvalid, hnext⟩, hrest⟩ := forall_mem_cons.mp hrecords
    rw [map_cons, nodup_cons] at hids hnames
    obtain ⟨⟨revision, text⟩, hrestored⟩ := restored_ok supply hnext
    have htidy' := htidy.insert (restored_spec hvalid hrestored).plain (.inr ⟨hnone, hname⟩)
    obtain ⟨restored, hok⟩ := restoreFrom_ok supply htidy' hids.2 hnames.2
      fun other hother => by
        obtain ⟨honone, honame, horest⟩ := hrest other hother
        refine ⟨?_, ?_, horest⟩
        · rwa [states.get?_insert_of_ne _ fun heq => hids.1 (mem_map.mpr ⟨other, hother, heq⟩)]
        refine htidy'.named.named_eq_none.mpr fun id state hstate => ?_
        by_cases hid : record.metadata.id = id
        · subst hid
          rw [states.get?_insert_self] at hstate
          rw [← Option.some.inj hstate]
          exact fun heq => hnames.1 (mem_map.mpr ⟨other, hother, heq.symm⟩)
        · rw [states.get?_insert_of_ne _ (Ne.symm hid)] at hstate
          exact htidy.named.named_eq_none.mp honame id state hstate
    refine ⟨restored, ?_⟩
    unfold restoreFrom
    rw [if_neg, hrestored]
    · exact hok
    · simp [hvalid, hnone, hname]

theorem nodup_persisted_names {states : BufferStates} (h : states.Named) :
    (states.persisted.map fun record => record.metadata.name).Nodup := by
  unfold persisted
  rw [map_map]
  refine pairwise_map.mpr (states.entries.sorted.imp_of_mem fun {a b} ha hb hab heq => ?_)
  exact hab.ne' (h.unique (get?_eq_some.mpr ha) (get?_eq_some.mpr hb) heq.symm)

/-- **The mirror of live buffers comes back**, if the revisions of volatile ones fit. -/
theorem Mirrors.restore_ok {replayed live : BufferStates} (h : replayed.Mirrors live)
    (hnamed : replayed.Named) (supply : Supply)
    (hlast : ∀ id state, live.get? id = some state → state.metadata.durability = .volatile →
      state.deleted = false → state.revision + 1 < 2 ^ 64) :
    ∃ restored, BufferStates.restore supply replayed.persisted = .ok restored := by
  refine restoreFrom_ok supply tidy_empty (nodup_persisted replayed) (nodup_persisted_names hnamed)
    fun record hrecord => ?_
  obtain ⟨p, hp, rfl⟩ := mem_persisted.mp hrecord
  obtain ⟨l, hl, hmirrors⟩ := h.of_replayed hp
  refine ⟨rfl, named_empty.named_eq_none.mpr nofun, hmirrors.isInvalid_persisted,
    fun hvolatile hkept => ?_⟩
  have hle := hmirrors.le
  have hbound := hlast _ l hl ((congrArg BufferMetadata.durability hmirrors.metadata).trans hvolatile)
    (hmirrors.deleted.trans hkept)
  change p.revision + 1 < 2 ^ 64
  omega

/-- The check of the catalogue passes. -/
theorem validateCatalog_ok {states : BufferStates} {relations : SortedMap RelationId (RelationState M)}
    (h : ∀ id state, states.get? id = some state → relations.get? id = none ∧
      ∀ relation other, relations.get? relation = some other →
        other.metadata.name ≠ state.metadata.name) : states.validateCatalog relations = .ok () := by
  unfold validateCatalog
  rw [find?_eq_none.mpr]
  intro e he
  have hget := get?_eq_some.mpr he
  obtain ⟨hnone, hnames⟩ := h e.1 e.2 hget
  rw [states.keyed e.1 e.2 hget, hnone]
  simp only [Option.isSome_none, Bool.false_or, any_eq_true, decide_eq_true_eq, not_exists, not_and]
  exact fun r hr => hnames r.1 r.2 (get?_eq_some.mpr hr)

end BufferStates

/-- **What a loaded root has of the live one**: the relations with their metadata, the facts of
those that are durable, and the rules. -/
structure Root.Reloads (live loaded : Root M) : Prop where
  metadata : ∀ id, (loaded.facts.relations.get? id).map RelationState.metadata =
    (live.facts.relations.get? id).map RelationState.metadata
  facts : ∀ id, RelationKernel.isDurable live.facts id = true →
    ∀ t, loaded.facts.Holds id t ↔ live.facts.Holds id t
  rules : loaded.facts.rules = live.facts.rules

theorem Replayed.Mirrors.reloads {r : Replayed M} {a b : Root M} (h : r.Mirrors a)
    (hrelations : b.facts.relations = r.relations) (hrules : b.facts.rules = r.rules) :
      a.Reloads b := by
  refine ⟨fun id => ?_, fun id hdurable t => ?_, hrules.trans h.rules⟩
  · have hid := h.relations id
    rw [hrelations]
    generalize r.relations.get? id = p at hid ⊢
    generalize a.facts.relations.get? id = l at hid ⊢
    cases hid with
    | none => rfl
    | some hmirrors => exact congrArg some hmirrors.metadata
  obtain ⟨l, hl, hd⟩ := Replayed.isDurable_iff.mp hdurable
  obtain ⟨p, hp, hmirrors⟩ := h.of_live hl
  rw [Snapshot.holds_iff hl, Snapshot.holds_iff (hrelations ▸ hp : b.facts.relations.get? id = some p),
    hmirrors.rows]
  exact and_iff_left hd

namespace RootSystem

variable {s : RootSystem M}

/-- **The log replays to the live state**: whatever a kernel has gone through, loading its log
succeeds and gives the durable state of the live kernel, as long as the revisions of its volatile
buffers fit. -/
theorem log_replays_to_live (h : Runs start s) (supply : Supply)
    (hlast : ∀ id state, s.root.buffers.get? id = some state → state.metadata.durability = .volatile →
      state.deleted = false → state.revision + 1 < 2 ^ 64) :
    ∃ root : Root M, RelationKernel.loadFromCommitLog supply s.kernel.log = .ok root ∧
      s.root.Reloads root := by
  have hleaves := h.leaves sound_start tidy_start
  have hlogged := hleaves.logged RelationKernel.logged_new
  have hreplays := (h.leavesReplay sound_start tidy_start ruled_start).replays
    RelationKernel.logged_new
    RelationKernel.replays_new
  obtain ⟨r, hr, hmirrors⟩ := hreplays supply
  obtain ⟨replayed, hreplayed, hbuffers, hnamed⟩ := hlogged.buffers supply
  obtain rfl : r.buffers = replayed :=
    Except.ok.inj ((Replayed.commits_spec hr).1.symm.trans hreplayed)
  obtain ⟨restored, hrestored⟩ := hbuffers.restore_ok hnamed supply hlast
  have hcatalog : r.buffers.validateCatalog r.relations = .ok () := by
    refine BufferStates.validateCatalog_ok fun id p hp => ?_
    obtain ⟨l, hl, hsame⟩ := hbuffers.of_replayed hp
    obtain ⟨hnone, hnames⟩ := hleaves.tidy.apart id l hl
    refine ⟨Option.eq_none_iff_forall_ne_some.mpr fun other hother => ?_,
      fun relation other hother => ?_⟩
    · obtain ⟨live, hlive, -⟩ := hmirrors.of_replayed hother
      cases hnone.symm.trans hlive
    · obtain ⟨live, hlive, hrelation⟩ := hmirrors.of_replayed hother
      rw [hrelation.metadata, ← hsame.metadata]
      exact hnames relation live hlive
  refine ⟨⟨⟨lastVersion s.kernel.log, r.relations, r.rules, s.kernel.log.map RootCommit.facts⟩,
    restored⟩,
    ?_, hmirrors.reloads rfl rfl⟩
  unfold RelationKernel.loadFromCommitLog
  rw [hr]
  dsimp only
  rw [hcatalog]
  dsimp only
  rw [hrestored]

/-- A volatile buffer. -/
def scratchMetadata : BufferMetadata := ⟨.ofByte 1, ⟨0⟩, .volatile, .span⟩

/-- A kernel with the buffer. -/
def scratch : RootSystem Entries :=
  [RootAction.begin, .act 0 (.createBuffer scratchMetadata),
    .commit 0 (.ok ()) ⟨0, 0⟩ (.ok ())].foldl step start

/-- A durable and a volatile relation beside it, each with a fact. -/
def scratchFacts : RootSystem Entries :=
  [RootAction.createRelation (.new (.ofByte 2) ⟨1⟩ 1) (.ok ()),
    .createRelation { RelationMetadata.new (.ofByte 3) ⟨2⟩ 1 with durability := .volatile } (.ok ()),
    .begin, .act 0 (.assert (.ofByte 2) [.bool true]), .act 0 (.assert (.ofByte 3) [.bool true]),
    .commit 0 (.ok ()) ⟨0, 0⟩ (.ok ())].foldl step scratch

theorem log_replays_to_live_scratchFacts : ∃ root : Root Entries,
    RelationKernel.loadFromCommitLog ⟨0, 0⟩ scratchFacts.kernel.log = .ok root ∧
      scratchFacts.root.Reloads root ∧
      RelationKernel.isDurable scratchFacts.root.facts ⟨2, by decide⟩ = true ∧
      scratchFacts.root.facts.Holds ⟨2, by decide⟩ [.bool true] := by
  have hruns : Runs start scratchFacts := ((Runs.refl start).foldl _).foldl _
  obtain ⟨root, hload, hreloads⟩ := log_replays_to_live hruns ⟨0, 0⟩ fun id state hstate _ _ => by
    have hmem : (id, state) ∈ scratchFacts.root.buffers.entries.list := get?_eq_some.mp hstate
    have hlist : scratchFacts.root.buffers.entries.list =
        [(scratchMetadata.id, ⟨scratchMetadata, 0, Text.empty, false, 0⟩)] := by rfl
    rw [hlist, mem_singleton] at hmem
    rw [(Prod.mk.inj hmem).2]
    decide
  refine ⟨root, hload, hreloads, by decide +kernel, ?_⟩
  have hrow : ((scratchFacts.root.facts.relations.get? ⟨2, by decide⟩).map fun state =>
      decide ([.bool true] ∈ state.rows)) = some true := by
    decide +kernel
  obtain ⟨state, hstate, hmem⟩ := Option.map_eq_some_iff.mp hrow
  exact ⟨state, hstate, of_decide_eq_true hmem⟩

end RootSystem

end Load

end Mica
