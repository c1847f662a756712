import Mica.Provider.BufferCheckpoints
import Mica.Provider.CommitRoundTrip

/-!
# Provider/CheckpointReplay — loading and replaying

`write_changes` appends a change without replaying it, and reads the store as it was before the
commit.  So what it accepts may not replay, and then the store does not load; but it loads whenever
the changes of every buffer do replay, and gives back what they replay to.

* `BufferSpace.Counts.run` — counters count the changes that are stored, whatever those are.
* `BufferSpace.Stands.run` — a buffer loads to what its own changes replay to, or not at all.
* `BufferSpace.loadBuffers_iff_replay` — both, over any accepted sequence of commits.
-/

open SortedList List SortedMap Option
open Except (ok.inj)

namespace Mica

namespace BufferSpace

section Code

variable (encode : BufferChange → Except String ℕ) (supply : Supply)

/-- `write_changes` for the commits of a sequence, one batch each. -/
def writeCommits : BufferSpace → List (List BufferChange) → Except CheckpointError BufferSpace
  | space, [] => .ok space
  | space, changes :: commits =>
    match writeChanges encode supply space changes with
    | .error e => .error e
    | .ok space => writeCommits space commits

end Code

/-- The changes of a buffer, in the order of the commits. -/
def changesOf (id : Identity) (changes : List BufferChange) : List BufferChange :=
  changes.filter fun change => change.metadata.id = id

/-- Commits with at most one change of each buffer. -/
def OneEach (commits : List (List BufferChange)) : Prop :=
  ∀ changes ∈ commits, (changes.map fun change => change.metadata.id).Nodup

section Steps

variable {encode : BufferChange → Except String ℕ} {supply supply₀ : Supply}
  {space batch batch' : BufferSpace} {change : BufferChange} {id : Identity} {counter : Counter}

/-! ## What a write does -/

/-- A written checkpoint: the change replays behind what is loaded, and takes the place of the
changes that were stored. -/
structure WritesCheckpoint (supply : Supply) (space batch : BufferSpace) (change : BufferChange)
    (counter : Counter) (batch' : BufferSpace) : Prop where
  loaded : ∃ loaded, (if (space.counters.get? change.metadata.id).isSome then
      space.loadBuffer supply change.metadata.id counter else .ok BufferStates.empty) = .ok loaded ∧
    ∃ replayed, loaded.replay supply change = .ok replayed
  eq : ∃ checkpoint, batch' = {
    counters := batch.counters.insert change.metadata.id ⟨change.revision, 0, 0⟩
    checkpoints := batch.checkpoints.insert change.metadata.id checkpoint
    deltas := batch.deltas.insert change.metadata.id
      ((batch.deltasOf change.metadata.id).retain fun key _ =>
        ((space.deltasOf change.metadata.id).get? key).isNone) }

/-- A change that is written behind the others. -/
structure WritesDelta (space batch : BufferSpace) (change : BufferChange) (counter : Counter)
    (len : ℕ) (batch' : BufferSpace) : Prop where
  prior : (space.counters.get? change.metadata.id).isSome = true
  revision : counter.revision < change.revision
  deltas : counter.deltas + 1 < maxDeltas
  bytes : saturatingAdd counter.bytes len < maxDeltaBytes
  eq : batch' = { batch with
    counters := batch.counters.insert change.metadata.id
      ⟨change.revision, counter.deltas + 1, saturatingAdd counter.bytes len⟩
    deltas := batch.deltas.insert change.metadata.id
      ((batch.deltasOf change.metadata.id).insert change.revision (change, len)) }

/-- **Everything that writing a change can do.** -/
theorem writeChange_cases (h : writeChange encode supply space batch change = .ok batch') :
    ∃ counter, (space.counters.get? change.metadata.id).elim (.ok Counter.default) Counter.decode =
        .ok counter ∧
      (WritesCheckpoint supply space batch change counter batch' ∨
        ∃ len, WritesDelta space batch change counter len batch') := by
  unfold writeChange at h
  dsimp only at h
  split at h
  · cases h
  next counter hdecode =>
  split at h
  · cases h
  next hfollows =>
  split at h
  · cases h
  next len hencode =>
  refine ⟨counter, hdecode, ?_⟩
  split at h
  · unfold writeCheckpoint at h
    dsimp only at h
    split at h
    · cases h
    next loaded hload =>
    split at h
    · cases h
    next replayed hreplay =>
    split at h
    · cases h
    next checkpoint hcheckpoint =>
    split at h
    · cases h
    exact Or.inl ⟨⟨loaded, hload, replayed, hreplay⟩, checkpoint, (ok.inj h).symm⟩
  · next hsmall =>
    push Not at hfollows hsmall
    have hprior : (space.counters.get? change.metadata.id).isSome = true :=
      isSome_iff_ne_none.mpr fun hnone => hsmall.1 (isNone_iff_eq_none.mpr hnone)
    exact Or.inr ⟨len, hprior, hfollows.1 hprior, hsmall.2.2.1, hsmall.2.2.2,
      (ok.inj h).symm⟩

/-- Writing a change leaves the other buffers alone. -/
theorem writeChange_agreeAt (h : writeChange encode supply space batch change = .ok batch') :
    ∀ id, id ≠ change.metadata.id → AgreeAt batch batch' id := by
  obtain ⟨counter, -, ⟨-, checkpoint, rfl⟩ | ⟨len, hdelta⟩⟩ := writeChange_cases h
  · exact agreeAt_insert fun id hne => get?_insert_of_ne hne
  · rw [hdelta.eq]
    exact agreeAt_insert fun _ _ => rfl

/-- A checkpoint leaves no changes. -/
theorem retain_empty (hagree : AgreeAt space batch id) :
    (batch.deltasOf id).retain (fun key _ => ((space.deltasOf id).get? key).isNone) =
      SortedMap.empty := by
  refine ext_get? fun key => ?_
  rw [get?_retain, hagree.deltas, get?_empty, filter_eq_none_iff]
  intro value hvalue
  rw [hvalue]
  exact nofun

/-! ## Counters -/

/-- **The counter of a buffer counts its changes**: how many they are, how long, and the revision
they end at. -/
def Counts (space : BufferSpace) (id : Identity) : Prop :=
  match space.counters.get? id with
  | none => (space.deltasOf id).list = []
  | some counter => counter.decode = .ok counter ∧
      counter.deltas = (space.deltasOf id).list.length ∧
      counter.bytes = ((space.deltasOf id).list.map fun e => e.2.2).sum ∧
      ∀ e ∈ (space.deltasOf id).list, e.1 ≤ counter.revision

theorem AgreeAt.counts (h : AgreeAt space batch id) (hcounts : space.Counts id) :
    batch.Counts id := by
  unfold Counts at hcounts ⊢
  rwa [h.counters, h.deltas]

theorem Counts.of_decode (hcounts : space.Counts id)
    (hprior : (space.counters.get? id).isSome = true)
    (hdecode : (space.counters.get? id).elim (.ok Counter.default) Counter.decode = .ok counter) :
    space.counters.get? id = some counter ∧ counter.deltas = (space.deltasOf id).list.length ∧
      counter.bytes = ((space.deltasOf id).list.map fun e => e.2.2).sum ∧
      ∀ e ∈ (space.deltasOf id).list, e.1 ≤ counter.revision := by
  obtain ⟨found, hfound⟩ := isSome_iff_exists.mp hprior
  unfold Counts at hcounts
  rw [hfound] at hcounts hdecode
  obtain rfl := Counter.decode_eq_ok hdecode
  exact ⟨hfound, hcounts.2⟩

/-- The changes of a buffer with a new one behind them. -/
theorem list_insert_delta {len : ℕ} (hagree : AgreeAt space batch change.metadata.id)
    (hkeys : ∀ e ∈ (space.deltasOf change.metadata.id).list, e.1 ≤ counter.revision)
    (hlt : counter.revision < change.revision) :
    ((batch.deltasOf change.metadata.id).insert change.revision (change, len)).list =
      (space.deltasOf change.metadata.id).list ++ [(change.revision, change, len)] := by
  rw [hagree.deltas]
  exact list_insert_of_lt fun e he => (hkeys e he).trans_lt hlt

theorem Counts.writeChange (hagree : AgreeAt space batch change.metadata.id)
    (hcounts : space.Counts change.metadata.id)
    (h : writeChange encode supply space batch change = .ok batch') :
    batch'.Counts change.metadata.id := by
  obtain ⟨counter, hdecode, ⟨-, checkpoint, rfl⟩ | ⟨len, hdelta⟩⟩ := writeChange_cases h
  · unfold Counts
    rw [deltasOf_insert, retain_empty hagree]
    dsimp only
    rw [get?_insert_self]
    refine ⟨?_, rfl, rfl, nofun⟩
    unfold Counter.decode
    rw [if_neg (by simp [maxDeltas, maxDeltaBytes])]
  obtain ⟨-, hdeltas, hbytes, hkeys⟩ := hcounts.of_decode hdelta.prior hdecode
  have hlt := hdelta.revision
  have hsmall := hdelta.bytes
  have hsum : saturatingAdd counter.bytes len = counter.bytes + len := by
    unfold saturatingAdd at hsmall ⊢
    unfold maxDeltaBytes at hsmall
    omega
  rw [hdelta.eq]
  unfold Counts
  rw [deltasOf_insert, list_insert_delta hagree hkeys hlt]
  dsimp only
  rw [get?_insert_self]
  refine ⟨?_, by rw [hdeltas]; simp, by rw [hsum, hbytes]; simp, fun e he => ?_⟩
  · unfold Counter.decode
    rw [if_neg]
    rintro (⟨hzero, -⟩ | hmany | hlong)
    · exact absurd (show change.revision = 0 from hzero) (by omega)
    · exact absurd hmany (not_le.mpr hdelta.deltas)
    · exact absurd hlong (not_le.mpr hsmall)
  · rcases mem_append.mp he with hold | hnew
    · exact ((hkeys e hold).trans_lt hlt).le
    · rw [mem_singleton.mp hnew]

/-! ## Buffers -/

/-- The stored changes of a buffer do not replay behind its checkpoint. -/
structure Stuck (space : BufferSpace) (id : Identity) : Prop where
  prior : (space.counters.get? id).isSome = true
  loop : ∀ supply checkpoint first out, space.checkpoints.get? id = some checkpoint →
    BufferStates.empty.replay supply checkpoint = .ok first →
      loadDeltas supply id first 0 0 (space.deltasOf id).list ≠ .ok out

theorem Stuck.loadBuffer (h : space.Stuck id) {states : BufferStates} :
    space.loadBuffer supply id counter ≠ .ok states := by
  intro hload
  obtain ⟨checkpoint, first, hcheckpoint, -, hfirst, hloop⟩ := loadBuffer_eq_ok hload
  exact h.loop supply checkpoint first _ hcheckpoint hfirst hloop

/-- **A buffer stands for its changes**: it holds what they replay to, or does not load. -/
def Stands (supply₀ : Supply) (space : BufferSpace) (id : Identity) (changes : List BufferChange) :
    Prop :=
  match BufferStates.empty.replayAll supply₀ (changesOf id changes) with
  | .ok own => space.HoldsAt id (own.get? id)
  | .error _ => space.Stuck id

theorem AgreeAt.stands (h : AgreeAt space batch id) {changes : List BufferChange}
    (hstands : space.Stands supply₀ id changes) : batch.Stands supply₀ id changes := by
  unfold Stands at hstands ⊢
  split at hstands
  · exact h.holdsAt hstands
  · refine ⟨h.counters ▸ hstands.prior, fun supply checkpoint first out hcheckpoint => ?_⟩
    rw [h.deltas]
    exact hstands.loop supply checkpoint first out (h.checkpoints ▸ hcheckpoint)

theorem changesOf_concat_self {changes : List BufferChange} :
    changesOf change.metadata.id (changes ++ [change]) =
      changesOf change.metadata.id changes ++ [change] := by
  simp [changesOf]

theorem changesOf_concat_of_ne {changes : List BufferChange} (hne : id ≠ change.metadata.id) :
    changesOf id (changes ++ [change]) = changesOf id changes := by
  simp [changesOf, hne.symm]

theorem replayAll_concat_eq : ∀ {changes : List BufferChange} {states : BufferStates},
    states.replayAll supply (changes ++ [change]) =
      (states.replayAll supply changes).bind fun states => states.replay supply change
  | [], states => by
    rw [nil_append]
    unfold BufferStates.replayAll
    change _ = states.replay supply change
    cases states.replay supply change with
    | error e => rfl
    | ok states' => rfl
  | first :: changes, states => by
    rw [cons_append]
    unfold BufferStates.replayAll
    cases states.replay supply first with
    | error e => rfl
    | ok states' => exact replayAll_concat_eq

/-- Changes of one buffer leave nothing, or that buffer. -/
theorem eq_empty_of_replayAll {own : BufferStates} : ∀ {changes : List BufferChange}
    {states : BufferStates}, (∀ change ∈ changes, change.metadata.id = id) →
      (states.get? id = none → states = BufferStates.empty) →
        states.replayAll supply changes = .ok own → own.get? id = none → own = BufferStates.empty
  | [], states, _, hstates, h => ok.inj h ▸ hstates
  | change :: changes, states, hids, hstates, h => by
    unfold BufferStates.replayAll at h
    split at h
    · cases h
    next states' hreplay =>
    obtain ⟨text, -, -, rfl⟩ := BufferStates.replay_eq_ok hreplay
    obtain ⟨hid, hids⟩ := forall_mem_cons.mp hids
    refine eq_empty_of_replayAll hids (fun hnone => ?_) h
    have hself := states.get?_insert_self
      ⟨change.metadata, change.revision, text, change.deleted, 0⟩
    dsimp only at hself
    rw [hid] at hself
    cases hnone.symm.trans hself

theorem loadDeltas_append {out : BufferStates × ℕ × ℕ} :
    ∀ {l l' : List (ℕ × BufferChange × ℕ)} {states : BufferStates} {d b : ℕ},
      loadDeltas supply id states d b (l ++ l') = .ok out → ∃ states' d' b',
        loadDeltas supply id states d b l = .ok (states', d', b') ∧
          loadDeltas supply id states' d' b' l' = .ok out
  | [], l', states, d, b, h => ⟨states, d, b, rfl, h⟩
  | (key, value, len) :: l, l', states, d, b, h => by
    rw [cons_append] at h
    unfold loadDeltas at h
    split at h
    · cases h
    next hcount =>
    split at h
    · cases h
    next change hdecode =>
    split at h
    · cases h
    next hkey =>
    split at h
    · cases h
    next states' hreplay =>
    obtain ⟨states'', d', b', hold, hnew⟩ := loadDeltas_append h
    refine ⟨states'', d', b', ?_, hnew⟩
    unfold loadDeltas
    rw [if_neg hcount, hdecode]
    dsimp only
    rwa [if_neg hkey, hreplay]

theorem replay_of_loadDeltas_single {key len d b : ℕ} {states : BufferStates}
    {out : BufferStates × ℕ × ℕ}
    (h : loadDeltas supply id states d b [(key, change, len)] = .ok out) :
    ∃ replayed, states.replay supply change = .ok replayed := by
  unfold loadDeltas at h
  split at h
  · cases h
  split at h
  · cases h
  next change' hdecode =>
  obtain ⟨rfl, -⟩ := decodeChange_eq_ok hdecode
  split at h
  · cases h
  split at h
  · cases h
  next replayed hreplay => exact ⟨replayed, hreplay⟩

/-- What replays behind the loaded buffer replays behind its own changes. -/
theorem replay_own (supply₀ : Supply) {own loaded replayed : BufferStates}
    (hempty : own.get? change.metadata.id = none → own = BufferStates.empty)
    (hget : Option.Rel BufferState.Alike (own.get? change.metadata.id)
      (loaded.get? change.metadata.id))
    (h : loaded.replay supply change = .ok replayed) :
    ∃ own', own.replay supply₀ change = .ok own' := by
  have hsymm : Option.Rel BufferState.Alike (loaded.get? change.metadata.id)
      (own.get? change.metadata.id) := by
    generalize loaded.get? change.metadata.id = q at hget
    generalize own.get? change.metadata.id = p at hget
    cases hget with
    | none => exact .none
    | some halike =>
      exact .some ⟨halike.metadata.symm, halike.revision.symm, halike.text.symm,
        halike.deleted.symm⟩
  have hfree : loaded.get? change.metadata.id = none → own.named change.metadata.name = none := by
    intro hnone
    have hnone' : own.get? change.metadata.id = none := by
      rw [hnone] at hget
      generalize own.get? change.metadata.id = p at hget
      cases hget
      rfl
    rw [hempty hnone']
    rfl
  obtain ⟨text, text', -, -, -, hown, -⟩ := BufferStates.replay_alike supply₀ hsymm hfree h
  exact ⟨_, hown⟩

/-- **A written change**: a buffer that stands for its changes stands for the new one too. -/
theorem Stands.writeChange {changes : List BufferChange}
    (hagree : AgreeAt space batch change.metadata.id)
    (hcounts : space.Counts change.metadata.id)
    (hstands : space.Stands supply₀ change.metadata.id changes)
    (h : writeChange encode supply space batch change = .ok batch') :
    batch'.Stands supply₀ change.metadata.id (changes ++ [change]) := by
  obtain ⟨counter, hdecode, hcases⟩ := writeChange_cases h
  unfold Stands at hstands ⊢
  rw [changesOf_concat_self, replayAll_concat_eq]
  cases hown : BufferStates.empty.replayAll supply₀ (changesOf change.metadata.id changes) with
  | error e =>
    rw [hown] at hstands
    change batch'.Stuck change.metadata.id
    rcases hcases with hcheckpoint | ⟨len, hdelta⟩
    · obtain ⟨loaded, hload, -⟩ := hcheckpoint.loaded
      rw [if_pos hstands.prior] at hload
      exact absurd hload hstands.loadBuffer
    obtain ⟨-, -, -, hkeys⟩ := hcounts.of_decode hdelta.prior hdecode
    rw [hdelta.eq]
    refine ⟨by dsimp only; rw [get?_insert_self]; rfl,
      fun supply checkpoint first out hcheckpoint hfirst hloop => ?_⟩
    rw [deltasOf_insert, list_insert_delta hagree hkeys hdelta.revision] at hloop
    obtain ⟨states, d, b, hold, -⟩ := loadDeltas_append hloop
    exact hstands.loop supply checkpoint first _ (hagree.checkpoints ▸ hcheckpoint) hfirst hold
  | ok own =>
    rw [hown] at hstands
    change space.HoldsAt change.metadata.id (own.get? change.metadata.id) at hstands
    have hempty : own.get? change.metadata.id = none → own = BufferStates.empty :=
      eq_empty_of_replayAll (fun c hc => of_decide_eq_true (mem_filter.mp hc).2)
        (fun _ => rfl) hown
    change match own.replay supply₀ change with
      | .ok own => batch'.HoldsAt change.metadata.id (own.get? change.metadata.id)
      | .error _ => batch'.Stuck change.metadata.id
    cases hreplay : own.replay supply₀ change with
    | ok own' => exact (writeChange_spec hagree hstands hreplay h).1
    | error e =>
      have hfails : ∀ {loaded replayed : BufferStates} {supply : Supply},
          Option.Rel BufferState.Alike (own.get? change.metadata.id)
            (loaded.get? change.metadata.id) → loaded.replay supply change ≠ .ok replayed := by
        intro loaded replayed supply hget hloaded
        obtain ⟨own', hown'⟩ := replay_own supply₀ hempty hget hloaded
        cases hreplay.symm.trans hown'
      rcases hcases with hcheckpoint | ⟨len, hdelta⟩
      · obtain ⟨loaded, hload, replayed, hreplayed⟩ := hcheckpoint.loaded
        obtain ⟨loaded', hload', hget, -⟩ := hstands.loaded supply hdecode
        obtain rfl := ok.inj (hload.symm.trans hload')
        exact absurd hreplayed (hfails hget)
      obtain ⟨-, -, -, hkeys⟩ := hcounts.of_decode hdelta.prior hdecode
      rw [hdelta.eq]
      refine ⟨by dsimp only; rw [get?_insert_self]; rfl,
        fun supply checkpoint first out hcheckpoint hfirst hloop => ?_⟩
      rw [deltasOf_insert, list_insert_delta hagree hkeys hdelta.revision] at hloop
      obtain ⟨states, d, b, hold, hnew⟩ := loadDeltas_append hloop
      obtain ⟨replayed, hreplayed⟩ := replay_of_loadDeltas_single hnew
      -- the loop over the old changes ends where loading ends
      obtain ⟨loaded, hload, hget, -⟩ := hstands.loaded supply hdecode
      rw [if_pos hdelta.prior] at hload
      obtain ⟨checkpoint', first', hcheckpoint', -, hfirst', hloop'⟩ := loadBuffer_eq_ok hload
      obtain rfl : checkpoint' = checkpoint := Option.some.inj
        (hcheckpoint'.symm.trans (hagree.checkpoints ▸ hcheckpoint))
      obtain rfl := ok.inj (hfirst'.symm.trans hfirst)
      obtain ⟨rfl, -⟩ := Prod.mk.inj (ok.inj (hloop'.symm.trans hold))
      exact hfails hget hreplayed

/-- **A commit**: the changes are of different buffers, and read the store before it. -/
theorem run_changes : ∀ {changes before : List BufferChange} {batch batch' : BufferSpace},
    (changes.map fun change => change.metadata.id).Nodup →
      (∀ change ∈ changes, AgreeAt space batch change.metadata.id) →
        (∀ id, batch.Counts id ∧ batch.Stands supply₀ id before) →
          writeChangesTo encode supply space batch changes = .ok batch' →
            ∀ id, batch'.Counts id ∧ batch'.Stands supply₀ id (before ++ changes)
  | [], before, batch, batch', _, _, hbatch, h => by
    obtain rfl := ok.inj h
    simpa using hbatch
  | change :: changes, before, batch, batch', hids, hagree, hbatch, h => by
    unfold writeChangesTo at h
    split at h
    · cases h
    next next hwrite =>
    rw [map_cons, nodup_cons] at hids
    have hself := hagree change mem_cons_self
    have hback : AgreeAt batch space change.metadata.id :=
      ⟨hself.counters.symm, hself.checkpoints.symm, hself.deltas.symm⟩
    obtain ⟨hcounts, hstands⟩ := hbatch change.metadata.id
    have hother := writeChange_agreeAt hwrite
    have hnext : ∀ id, next.Counts id ∧ next.Stands supply₀ id (before ++ [change]) := by
      intro id
      by_cases hid : id = change.metadata.id
      · subst hid
        exact ⟨(hback.counts hcounts).writeChange hself hwrite,
          (hback.stands hstands).writeChange hself (hback.counts hcounts) hwrite⟩
      · obtain ⟨hcounts', hstands'⟩ := hbatch id
        refine ⟨(hother id hid).counts hcounts', (hother id hid).stands ?_⟩
        unfold Stands at hstands' ⊢
        rwa [changesOf_concat_of_ne hid]
    have hagree' : ∀ other ∈ changes, AgreeAt space next other.metadata.id := by
      intro other hmem
      have hne : other.metadata.id ≠ change.metadata.id := fun heq =>
        hids.1 (mem_map.mpr ⟨other, hmem, heq⟩)
      have hbefore := hagree other (mem_cons_of_mem _ hmem)
      have hafter := hother _ hne
      exact ⟨hafter.counters.trans hbefore.counters, hafter.checkpoints.trans hbefore.checkpoints,
        hafter.deltas.trans hbefore.deltas⟩
    have hrun := run_changes hids.2 hagree' hnext h
    rwa [append_assoc] at hrun

/-- **A sequence of commits** keeps the counters and what the buffers stand for. -/
theorem run_commits : ∀ {commits : List (List BufferChange)} {before : List BufferChange}
    {space space' : BufferSpace}, OneEach commits →
      (∀ id, space.Counts id ∧ space.Stands supply₀ id before) →
        writeCommits encode supply space commits = .ok space' →
          ∀ id, space'.Counts id ∧ space'.Stands supply₀ id (before ++ commits.flatten)
  | [], before, space, space', _, hspace, h => by
    obtain rfl := ok.inj h
    simpa using hspace
  | changes :: commits, before, space, space', hids, hspace, h => by
    unfold writeCommits at h
    split at h
    · cases h
    next next hwrite =>
    obtain ⟨hfirst, hrest⟩ := forall_mem_cons.mp hids
    have hnext := run_changes hfirst (fun _ _ => ⟨rfl, rfl, rfl⟩) hspace hwrite
    have hrun := run_commits hrest hnext h
    rwa [append_assoc] at hrun

/-! ## Loading -/

/-- Loading the store loads every buffer. -/
theorem loadBuffer_of_loadBuffers : ∀ {l : List (Identity × Counter)}
    {records : List PersistedBufferState}, space.loadBuffersFrom supply l = .ok records →
      ∀ e ∈ l, ∃ states, space.loadBuffer supply e.1 e.2 = .ok states
  | (id, counter) :: l, records, h, e, he => by
    unfold loadBuffersFrom at h
    split at h
    · cases h
    next counter' hdecode =>
    obtain rfl := Counter.decode_eq_ok hdecode
    split at h
    · cases h
    next states hload =>
    split at h
    · cases h
    next rest hrest =>
    rcases mem_cons.mp he with rfl | he
    · exact ⟨states, hload⟩
    · exact loadBuffer_of_loadBuffers hrest e he

/-- The buffers of some ids, together. -/
def gather (own : Identity → Option BufferState) (ids : List Identity) : BufferStates :=
  ids.foldr (fun id states => (own id).elim states states.insert) BufferStates.empty

theorem get?_gather (own : Identity → Option BufferState)
    (hkeyed : ∀ id p, own id = some p → p.metadata.id = id) (id : Identity) :
    ∀ ids : List Identity, (gather own ids).get? id = if id ∈ ids then own id else none
  | [] => rfl
  | id' :: ids => by
    have ih := get?_gather own hkeyed id ids
    change ((own id').elim (gather own ids) (gather own ids).insert).get? id = _
    cases hown : own id' with
    | none =>
      rw [elim_none, ih]
      by_cases heq : id = id'
      · simp [heq, hown]
      · simp [heq]
    | some p =>
      have hid := hkeyed id' p hown
      rw [elim_some]
      by_cases heq : id = id'
      · subst heq
        have hself := (gather own ids).get?_insert_self p
        rw [hid] at hself
        simp [hself, hown]
      · rw [(gather own ids).get?_insert_of_ne p (by rwa [hid]), ih]
        simp [heq]

end Steps

/-! ## The lengths of records -/

/-- The length of the record of a change. -/
def recordLength (T : SymbolTable) (change : BufferChange) : Except String ℕ :=
  match CommitRecord.encodeBufferChangesRecord T [change] with
  | .error _ => .error "buffer changes record"
  | .ok out => .ok out.length

/-! ## Any sequence of commits -/

/-- **The store loads what replay makes**: after any sequence of accepted commits, each with at most
one change of a buffer, the counters count the stored changes, and loading succeeds if and only if
the changes of every buffer replay from the start, and then gives just what they replay to. -/
theorem loadBuffers_iff_replay (encode : BufferChange → Except String ℕ)
    (supply supply₀ supply' : Supply) (commits : List (List BufferChange)) (hids : OneEach commits)
    (space : BufferSpace) (h : writeCommits encode supply empty commits = .ok space) :
    (∀ id, space.Counts id) ∧
    ((∃ records, space.loadBuffers supply' = .ok records) ↔
      ∀ id, ∃ own, BufferStates.empty.replayAll supply₀ (changesOf id commits.flatten) = .ok own) ∧
    ∀ records, space.loadBuffers supply' = .ok records →
      ∃ states : BufferStates, records = states.persisted ∧ ∀ id, ∃ own,
        BufferStates.empty.replayAll supply₀ (changesOf id commits.flatten) = .ok own ∧
          states.get? id = own.get? id := by
  have hstart : ∀ id, empty.Counts id ∧ empty.Stands supply₀ id [] := fun _ => ⟨rfl, rfl⟩
  have hrun := run_commits hids hstart h
  rw [nil_append] at hrun
  have hreplays : ∀ records, space.loadBuffers supply' = .ok records → ∀ id, ∃ own,
      BufferStates.empty.replayAll supply₀ (changesOf id commits.flatten) = .ok own := by
    intro records hload id
    have hstands := (hrun id).2
    unfold Stands at hstands
    split at hstands
    · next own hown => exact ⟨own, hown⟩
    · obtain ⟨counter, hcounter⟩ := isSome_iff_exists.mp hstands.prior
      obtain ⟨states, hstates⟩ :=
        loadBuffer_of_loadBuffers hload (id, counter) (get?_eq_some.mp hcounter)
      exact absurd hstates hstands.loadBuffer
  have hloads : (∀ id, ∃ own,
      BufferStates.empty.replayAll supply₀ (changesOf id commits.flatten) = .ok own) →
        ∃ states : BufferStates, space.loadBuffers supply' = .ok states.persisted ∧ ∀ id, ∃ own,
          BufferStates.empty.replayAll supply₀ (changesOf id commits.flatten) = .ok own ∧
            states.get? id = own.get? id := by
    intro hall
    choose own hown using hall
    have hholds : ∀ id, space.HoldsAt id ((own id).get? id) := by
      intro id
      have hstands := (hrun id).2
      unfold Stands at hstands
      rwa [hown id] at hstands
    have hget : ∀ id, (gather (fun id => (own id).get? id) space.counters.keys).get? id =
        (own id).get? id := by
      intro id
      rw [get?_gather (fun id => (own id).get? id) fun id p hp => (own id).keyed id p hp]
      split
      · rfl
      rename_i hnot
      rcases hp : (own id).get? id with _ | p
      · rfl
      have hkeeps := hholds id
      rw [hp] at hkeeps
      obtain ⟨counter, hkeeps⟩ := hkeeps
      exact absurd (SortedMap.mem_keys.mpr (by rw [hkeeps.get]; rfl)) hnot
    refine ⟨_, Holds.loadBuffers (fun id => ?_) supply', fun id => ⟨own id, hown id, hget id⟩⟩
    rw [hget]
    exact hholds id
  refine ⟨fun id => (hrun id).1, ⟨fun ⟨records, hload⟩ => hreplays records hload, fun hall => ?_⟩,
    fun records hload => ?_⟩
  · obtain ⟨states, hstates, -⟩ := hloads hall
    exact ⟨_, hstates⟩
  · obtain ⟨states, hstates, hown⟩ := hloads (hreplays records hload)
    exact ⟨states, ok.inj (hload.symm.trans hstates), hown⟩

/-- A change of the first or the second buffer; the second one is volatile. -/
def exampleChange (second : Bool) (base revision : ℕ) (delta : Delta) : BufferChange where
  metadata := if second then ⟨.ofByte 2, ⟨1⟩, .volatile, .span⟩
    else ⟨.ofByte 1, ⟨0⟩, .durable, .span⟩
  baseRevision := base
  revision := revision
  delta := delta
  deleted := false

/-- Two buffers are created, and both are written to. -/
def exampleCommits : List (List BufferChange) :=
  [[exampleChange false 0 0 ⟨[]⟩, exampleChange true 0 0 ⟨[]⟩],
    [exampleChange false 0 1 ⟨[⟨0, 0, ['a', 'b']⟩]⟩],
    [exampleChange true 0 1 ⟨[⟨0, 0, ['x']⟩]⟩, exampleChange false 1 2 ⟨[⟨1, 2, []⟩]⟩]]

theorem loadBuffers_iff_replay_example : ∃ space,
    writeCommits (recordLength recordNames) ⟨0, 0⟩ empty exampleCommits = .ok space ∧
    (∀ id, space.Counts id) ∧
    ((∃ records, space.loadBuffers ⟨0, 0⟩ = .ok records) ↔ ∀ id, ∃ own,
      BufferStates.empty.replayAll ⟨0, 0⟩ (changesOf id exampleCommits.flatten) = .ok own) ∧
    ∀ records, space.loadBuffers ⟨0, 0⟩ = .ok records →
      ∃ states : BufferStates, records = states.persisted ∧ ∀ id, ∃ own,
        BufferStates.empty.replayAll ⟨0, 0⟩ (changesOf id exampleCommits.flatten) = .ok own ∧
          states.get? id = own.get? id := by
  have hok : (writeCommits (recordLength recordNames) ⟨0, 0⟩ empty
      exampleCommits).isOk = true := by decide +kernel
  have hids : OneEach exampleCommits := by
    unfold OneEach
    decide +kernel
  rcases hspace : writeCommits (recordLength recordNames) ⟨0, 0⟩ empty exampleCommits with _ | space
  · rw [hspace] at hok
    cases hok
  exact ⟨space, rfl, loadBuffers_iff_replay _ _ ⟨0, 0⟩ ⟨0, 0⟩ exampleCommits hids space hspace⟩

/-- Whether the store loads after some commits, if those are accepted. -/
def loadsAfter (commits : List (List BufferChange)) : Option Bool :=
  (writeCommits (recordLength recordNames) ⟨0, 0⟩ empty commits).toOption.map
    fun space => (space.loadBuffers ⟨0, 0⟩).isOk

/-- A delta that replaces text which is not there is accepted, and so are two changes of one
volatile buffer in one commit, which replay; the store does not load then. -/
theorem accepted_not_loaded :
    loadsAfter exampleCommits = some true ∧
    loadsAfter [[exampleChange false 0 0 ⟨[]⟩], [exampleChange false 0 1 ⟨[⟨5, 6, ['x']⟩]⟩]] =
      some false ∧
    loadsAfter [[exampleChange true 0 0 ⟨[]⟩],
      [exampleChange true 0 1 ⟨[⟨0, 0, ['x']⟩]⟩, exampleChange true 1 2 ⟨[⟨0, 0, ['y']⟩]⟩]] =
        some false ∧
    (BufferStates.empty.replayAll ⟨0, 0⟩ [exampleChange true 0 0 ⟨[]⟩,
      exampleChange true 0 1 ⟨[⟨0, 0, ['x']⟩]⟩, exampleChange true 1 2 ⟨[⟨0, 0, ['y']⟩]⟩]).isOk =
        true := by
  decide +kernel

end BufferSpace

end Mica
