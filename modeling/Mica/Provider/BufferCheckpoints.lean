import Mica.Kernel.Restart

/-!
# Provider/BufferCheckpoints — buffers as the store keeps them

Next to the log the store keeps, for each buffer, a checkpoint, the changes since, and a counter.  A
change is appended until there are too many or too long ones; then the buffer is loaded, the change
replayed and a new checkpoint written.  Loading gives back what replaying the log gives.

* `BufferSpace.Holds.writeLog` — the store holds what the log replays to.
* `BufferSpace.Holds.loadBuffers` — and loads it.
-/

open SortedList List SortedMap Option
open Except (ok.inj)

namespace Mica

/-- What can be wrong with the store. -/
inductive CheckpointError where
  | invalidCounter
  | missingCheckpoint
  | identity
  | invalidCheckpoint (error : KernelError)
  | deltaKeyOrCount
  | deltaKey
  | invalidDelta (error : KernelError)
  | counterMismatch
  | notFollowing
  | invalidCommit (error : KernelError)
  | checkpointDelta (error : DeltaError)
  | encode (message : String)

def maxDeltas : ℕ := 4096

def maxDeltaBytes : ℕ := 1024 * 1024

/-- The last persisted revision of a buffer, and what was written since its checkpoint. -/
structure Counter where
  revision : ℕ
  deltas : ℕ
  bytes : ℕ

namespace Counter

def default : Counter := ⟨0, 0, 0⟩

/-- The check of `Counter::decode`. -/
def decode (counter : Counter) : Except CheckpointError Counter :=
  if (counter.revision = 0 ∧ (counter.deltas ≠ 0 ∨ counter.bytes ≠ 0)) ∨ maxDeltas ≤ counter.deltas
      ∨ maxDeltaBytes ≤ counter.bytes then .error .invalidCounter
  else .ok counter

theorem decode_eq_ok {counter counter' : Counter} (h : counter.decode = .ok counter') :
    counter' = counter := by
  unfold decode at h
  split at h
  · cases h
  exact (ok.inj h).symm

end Counter

/-- The keyspace of the buffers, by the tag of the key.  A record is the change it decodes to, with its
length where that is counted. -/
structure BufferSpace where
  counters : SortedMap Identity Counter
  checkpoints : SortedMap Identity BufferChange
  deltas : SortedMap Identity (SortedMap ℕ (BufferChange × ℕ))

namespace BufferSpace

def empty : BufferSpace := ⟨SortedMap.empty, SortedMap.empty, SortedMap.empty⟩

/-- The entries below the prefix of a buffer, in the order of the revisions. -/
def deltasOf (space : BufferSpace) (id : Identity) : SortedMap ℕ (BufferChange × ℕ) :=
  (space.deltas.get? id).getD SortedMap.empty

/-- `decode_change`. -/
def decodeChange (change : BufferChange) (id : Identity) : Except CheckpointError BufferChange :=
  if change.metadata.id ≠ id then .error .identity else .ok change

/-- The loop of `load_buffer`. -/
def loadDeltas (supply : Supply) (id : Identity) : BufferStates → ℕ → ℕ →
    List (ℕ × BufferChange × ℕ) → Except CheckpointError (BufferStates × ℕ × ℕ)
  | states, deltas, bytes, [] => .ok (states, deltas, bytes)
  | states, deltas, bytes, (key, value, len) :: rest =>
    if maxDeltas ≤ deltas then .error .deltaKeyOrCount
    else
      match decodeChange value id with
      | .error e => .error e
      | .ok change =>
        if key ≠ change.revision then .error .deltaKey
        else
          match states.replay supply change with
          | .error e => .error (.invalidDelta e)
          | .ok states => loadDeltas supply id states (deltas + 1) (bytes + len) rest

/-- `load_buffer`. -/
def loadBuffer (supply : Supply) (space : BufferSpace) (id : Identity) (counter : Counter) :
    Except CheckpointError BufferStates :=
  match space.checkpoints.get? id with
  | none => .error .missingCheckpoint
  | some checkpoint =>
    match decodeChange checkpoint id with
    | .error e => .error e
    | .ok change =>
      match BufferStates.empty.replay supply change with
      | .error e => .error (.invalidCheckpoint e)
      | .ok states =>
        match loadDeltas supply id states 0 0 (space.deltasOf id).list with
        | .error e => .error e
        | .ok (states, deltas, bytes) =>
          -- the replayed buffer is there, so it has a revision
          if deltas ≠ counter.deltas ∨ bytes ≠ counter.bytes
              ∨ (states.get? id).map BufferState.revision ≠ some counter.revision then
            .error .counterMismatch
          else .ok states

/-- The loop of `load_buffers`. -/
def loadBuffersFrom (supply : Supply) (space : BufferSpace) :
    List (Identity × Counter) → Except CheckpointError (List PersistedBufferState)
  | [] => .ok []
  | (id, record) :: rest =>
    match record.decode with
    | .error e => .error e
    | .ok counter =>
      match space.loadBuffer supply id counter with
      | .error e => .error e
      | .ok states =>
        match loadBuffersFrom supply space rest with
        | .error e => .error e
        | .ok records => .ok (states.persisted ++ records)

/-- `load_buffers`. -/
def loadBuffers (supply : Supply) (space : BufferSpace) :
    Except CheckpointError (List PersistedBufferState) :=
  space.loadBuffersFrom supply space.counters.list

/-- The checkpoint of a buffer: a change that writes its whole text. -/
def checkpointOf (state : BufferState) : Except CheckpointError BufferChange :=
  match Delta.new [⟨0, 0, state.text.toText⟩] with
  | .error e => .error (.checkpointDelta e)
  | .ok delta => .ok ⟨state.metadata, 0, state.revision, delta, state.deleted⟩

/-- `u64::saturating_add`. -/
def saturatingAdd (a b : ℕ) : ℕ := min (a + b) (2 ^ 64 - 1)

section Write

variable (encode : BufferChange → Except String ℕ) (supply : Supply)

/-- A new checkpoint, in place of the changes since the last one. -/
def writeCheckpoint (space batch : BufferSpace) (change : BufferChange) (prior : Option Counter)
    (counter : Counter) : Except CheckpointError BufferSpace :=
  let id := change.metadata.id
  match if prior.isSome then space.loadBuffer supply id counter else .ok BufferStates.empty with
  | .error e => .error e
  | .ok buffers =>
    match buffers.replay supply change with
    | .error e => .error (.invalidCommit e)
    | .ok buffers =>
      match (buffers.get? id).elim (.error .missingCheckpoint) checkpointOf with
      | .error e => .error e
      | .ok checkpoint =>
        match encode checkpoint with
        | .error message => .error (.encode message)
        | .ok _ => .ok {
            counters := batch.counters.insert id ⟨change.revision, 0, 0⟩
            checkpoints := batch.checkpoints.insert id checkpoint
            deltas := batch.deltas.insert id ((batch.deltasOf id).retain fun key _ =>
              ((space.deltasOf id).get? key).isNone) }

/-- One change of `write_changes`.  It reads the store as it was before the batch; `encode` gives the
length of a record. -/
def writeChange (space batch : BufferSpace) (change : BufferChange) :
    Except CheckpointError BufferSpace :=
  let id := change.metadata.id
  let prior := space.counters.get? id
  match prior.elim (.ok Counter.default) Counter.decode with
  | .error e => .error e
  | .ok counter =>
    if (prior.isSome ∧ change.revision ≤ counter.revision) ∨ (prior.isNone ∧ change.baseRevision ≠ 0)
        ∨ change.baseRevision < counter.revision
        ∨ (change.metadata.durability = .durable ∧ change.baseRevision ≠ counter.revision) then
      .error .notFollowing
    else
      match encode change with
      | .error message => .error (.encode message)
      | .ok len =>
        if prior.isNone ∨ change.deleted = true ∨ maxDeltas ≤ counter.deltas + 1
            ∨ maxDeltaBytes ≤ saturatingAdd counter.bytes len then
          writeCheckpoint encode supply space batch change prior counter
        else .ok { batch with
          counters := batch.counters.insert id
            ⟨change.revision, counter.deltas + 1, saturatingAdd counter.bytes len⟩
          deltas := batch.deltas.insert id
            ((batch.deltasOf id).insert change.revision (change, len)) }

/-- The loop of `write_changes`. -/
def writeChangesTo (space : BufferSpace) : BufferSpace → List BufferChange →
    Except CheckpointError BufferSpace
  | batch, [] => .ok batch
  | batch, change :: changes =>
    match writeChange encode supply space batch change with
    | .error e => .error e
    | .ok batch => writeChangesTo space batch changes

/-- `write_changes`, with the batch committed. -/
def writeChanges (space : BufferSpace) (changes : List BufferChange) :
    Except CheckpointError BufferSpace := writeChangesTo encode supply space space changes

/-- The store after the commits of a log. -/
def writeLog : BufferSpace → List RootCommit → Except CheckpointError BufferSpace
  | space, [] => .ok space
  | space, commit :: log =>
    match writeChanges encode supply space commit.bufferChanges with
    | .error e => .error e
    | .ok space => writeLog space log

end Write

/-! ## What the store holds -/

variable {space space' batch batch' : BufferSpace} {id : Identity} {counter : Counter}
  {supply : Supply} {change : BufferChange}

/-- A buffer that is the only one. -/
structure Only (states : BufferStates) (id : Identity) (q : BufferState) : Prop where
  get : states.get? id = some q
  alone : ∀ id', id' ≠ id → states.get? id' = none

theorem only_insert {states : BufferStates} {q : BufferState} (hkey : q.metadata.id = id)
    (h : ∀ id', id' ≠ id → states.get? id' = none) : Only (states.insert q) id q := by
  subst hkey
  refine ⟨states.get?_insert_self q, fun id' hne => ?_⟩
  rw [states.get?_insert_of_ne q hne, h id' hne]

theorem Only.persisted {states : BufferStates} {q : BufferState} (h : Only states id q) :
    states.persisted = [q.persisted] := by
  have hentries : states.entries = SortedMap.empty.insert id q := by
    refine ext_get? fun id' => ?_
    rw [get?_insert, get?_empty]
    split
    · next heq =>
      rw [heq]
      exact h.get
    · next hne => exact h.alone id' hne
  unfold BufferStates.persisted
  rw [hentries]
  rfl

/-- **The entries of a buffer**: its counter, and what they load to. -/
structure Keeps (space : BufferSpace) (id : Identity) (p : BufferState)
    (counter : Counter) : Prop where
  get : space.counters.get? id = some counter
  valid : counter.decode = .ok counter
  revision : counter.revision = p.revision
  keys : ∀ e ∈ (space.deltasOf id).list, e.1 ≤ counter.revision
  load : ∀ supply, ∃ states q, space.loadBuffer supply id counter = .ok states ∧
    Only states id q ∧ p.Alike q

/-- What the store has for a buffer. -/
def HoldsAt (space : BufferSpace) (id : Identity) : Option BufferState → Prop
  | none => space.counters.get? id = none
  | some p => ∃ counter, space.Keeps id p counter

/-- **The store holds some buffers.** -/
def Holds (space : BufferSpace) (states : BufferStates) : Prop := ∀ id, space.HoldsAt id
    (states.get? id)

/-- Two stores with the same entries for a buffer. -/
structure AgreeAt (space space' : BufferSpace) (id : Identity) : Prop where
  counters : space'.counters.get? id = space.counters.get? id
  checkpoints : space'.checkpoints.get? id = space.checkpoints.get? id
  deltas : space'.deltasOf id = space.deltasOf id

theorem AgreeAt.loadBuffer (h : AgreeAt space space' id) :
    space'.loadBuffer supply id counter = space.loadBuffer supply id counter := by
  unfold BufferSpace.loadBuffer
  rw [h.checkpoints, h.deltas]

theorem AgreeAt.holdsAt (h : AgreeAt space space' id) {state : Option BufferState}
    (hholds : space.HoldsAt id state) : space'.HoldsAt id state := by
  cases state with
  | none => exact h.counters.trans hholds
  | some p =>
    obtain ⟨counter, hkeeps⟩ := hholds
    refine ⟨counter, h.counters.trans hkeeps.get, hkeeps.valid, hkeeps.revision, ?_, fun supply => ?_⟩
    · rw [h.deltas]
      exact hkeeps.keys
    · rw [h.loadBuffer]
      exact hkeeps.load supply

theorem decodeChange_eq_ok {change' : BufferChange} (h : decodeChange change id = .ok change') :
    change' = change ∧ change.metadata.id = id := by
  unfold decodeChange at h
  split at h
  · cases h
  rename_i hid
  exact ⟨(ok.inj h).symm, not_not.mp hid⟩

theorem loadBuffer_eq_ok {states : BufferStates}
    (h : space.loadBuffer supply id counter = .ok states) :
    ∃ checkpoint first, space.checkpoints.get? id = some checkpoint ∧ checkpoint.metadata.id = id ∧
      BufferStates.empty.replay supply checkpoint = .ok first ∧
      loadDeltas supply id first 0 0 (space.deltasOf id).list =
        .ok (states, counter.deltas, counter.bytes) := by
  unfold loadBuffer at h
  split at h
  · cases h
  rename_i checkpoint hcheckpoint
  split at h
  · cases h
  rename_i change hdecode
  obtain ⟨rfl, hid⟩ := decodeChange_eq_ok hdecode
  split at h
  · cases h
  rename_i first hfirst
  split at h
  · cases h
  rename_i states' deltas bytes hdeltas
  split at h
  · cases h
  rename_i hsame
  push Not at hsame
  obtain rfl := ok.inj h
  exact ⟨change, first, hcheckpoint, hid, hfirst, by rw [hdeltas, hsame.1, hsame.2.1]⟩

theorem loadDeltas_concat {len : ℕ} {states' states'' : BufferStates} {d' b' : ℕ} (hd : d' < maxDeltas)
    (hid : change.metadata.id = id) (hreplay : states'.replay supply change = .ok states'') :
    ∀ {l : List (ℕ × BufferChange × ℕ)} {states : BufferStates} {d b : ℕ},
      loadDeltas supply id states d b l = .ok (states', d', b') →
        loadDeltas supply id states d b (l ++ [(change.revision, change, len)]) =
          .ok (states'', d' + 1, b' + len)
  | [], states, d, b, h => by
    obtain ⟨rfl, hrest⟩ := Prod.mk.inj (ok.inj h)
    obtain ⟨rfl, rfl⟩ := Prod.mk.inj hrest
    rw [nil_append]
    unfold loadDeltas decodeChange
    rw [if_neg (not_le.mpr hd), if_neg (not_not.mpr hid)]
    dsimp only
    rw [if_neg (not_not.mpr rfl), hreplay]
    rfl
  | (key, value, n) :: l, states, d, b, h => by
    rw [cons_append]
    unfold loadDeltas at h ⊢
    split at h
    · cases h
    rename_i hcount
    split at h
    · cases h
    split at h
    · cases h
    rename_i hkey
    split at h
    · cases h
    rw [if_neg hcount, if_neg hkey]
    exact loadDeltas_concat hd hid hreplay h

/-! ## Writing -/

/-- What a replay leaves of a buffer has no text that could not be there. -/
theorem plain_replayed {states : BufferStates} {text : Text} (hrefuses : states.refuses change = false)
    (htext : states.replayedText supply change = .ok text) :
    ((change.deleted = true ∨ change.metadata.durability = .volatile) → text.toText = []) ∧
      (change.revision = 0 → text.toText = [] ∧ change.deleted = false) := by
  unfold BufferStates.replayedText at htext
  have hempty : (change.deleted = true ∨ change.metadata.durability = .volatile) →
    text.toText = [] := by
    intro hlost
    rw [if_pos (by simpa using hlost)] at htext
    rw [← ok.inj htext]
    rfl
  refine ⟨hempty, fun hzero => ?_⟩
  -- only an empty creation has revision zero
  obtain ⟨hnone, hdelta, hkept⟩ : states.get? change.metadata.id = none ∧ change.delta.isEmpty = true ∧
      change.deleted = false := by
    unfold BufferStates.refuses at hrefuses
    simp only [Bool.or_eq_false_iff, Bool.and_eq_false_iff, hzero, Nat.zero_le, decide_true,
      Bool.true_or, Bool.not_eq_false', Bool.true_eq_false, or_false] at hrefuses
    have hcreation := hrefuses.1.1.1.1.1
    unfold BufferStates.isEmptyCreation at hcreation
    simp only [Bool.and_eq_true, isNone_iff_eq_none, Bool.not_eq_true'] at hcreation
    exact ⟨hcreation.1.1.1.1, hcreation.1.2, hcreation.2⟩
  refine ⟨?_, hkept⟩
  by_cases hvolatile : change.metadata.durability = .volatile
  · exact hempty (Or.inr hvolatile)
  rw [if_neg (by simp [hkept, hvolatile]), hnone] at htext
  unfold Delta.apply at htext
  rw [List.isEmpty_iff.mp hdelta] at htext
  rw [← ok.inj htext]
  rfl

/-- **A checkpoint replays to the buffer it was written for.** -/
theorem replay_checkpoint (supply' : Supply) {q : BufferState} {checkpoint : BufferChange}
    (hzero : q.revision = 0 → q.text.toText = [] ∧ q.deleted = false)
    (hlost : q.deleted = true ∨ q.metadata.durability = .volatile → q.text.toText = [])
    (h : checkpointOf q = .ok checkpoint) : checkpoint.metadata = q.metadata ∧
      ∃ r, BufferStates.empty.replay supply' checkpoint = .ok (BufferStates.empty.insert r) ∧
        q.Alike r := by
  unfold checkpointOf at h
  split at h
  · cases h
  rename_i delta hdelta
  obtain rfl := ok.inj h
  refine ⟨rfl, ?_⟩
  have hmakes : delta.Makes [] q.text.toText := @Delta.makes_whole Text.empty _ _ hdelta
  obtain ⟨view, hview, hcontent⟩ := hmakes Text.empty rfl supply'
  have hrefuses : BufferStates.empty.refuses
      ⟨q.metadata, 0, q.revision, delta, q.deleted⟩ = false := by
    have hget : BufferStates.empty.get? q.metadata.id = none := rfl
    have hnamed : BufferStates.empty.named q.metadata.name = none := rfl
    unfold BufferStates.refuses BufferStates.isEmptyCreation
    dsimp only
    rw [hget, hnamed]
    by_cases hrevision : q.revision = 0
    · obtain ⟨htext, hkept⟩ := hzero hrevision
      have hempty : delta = Delta.empty := by
        rw [htext] at hdelta
        exact (ok.inj hdelta).symm
      simp [hrevision, hkept, hempty, Delta.isEmpty, Delta.empty]
    · simp [hrevision]
  by_cases hempty : q.deleted = true ∨ q.metadata.durability = .volatile
  · refine ⟨⟨q.metadata, q.revision, Text.empty, q.deleted, 0⟩, ?_, rfl, rfl, (hlost hempty).symm, rfl⟩
    unfold BufferStates.replay BufferStates.replayedText
    rw [hrefuses, if_neg Bool.false_ne_true]
    dsimp only
    rw [if_pos (by simpa using hempty)]
  refine ⟨⟨q.metadata, q.revision, view, q.deleted, 0⟩, ?_, rfl, rfl, hcontent, rfl⟩
  unfold BufferStates.replay BufferStates.replayedText
  rw [hrefuses, if_neg Bool.false_ne_true]
  dsimp only
  rw [if_neg (by simpa using hempty)]
  have hget : BufferStates.empty.get? q.metadata.id = none := rfl
  rw [hget, elim_none, hview]

section Steps

variable {encode : BufferChange → Except String ℕ} {states states' : BufferStates} {supply₀ : Supply}

/-- What the store has for a buffer, and what it loads to. -/
theorem HoldsAt.loaded (h : space.HoldsAt id (states.get? id)) (supply : Supply)
    (hdecode : (space.counters.get? id).elim (.ok Counter.default) Counter.decode = .ok counter) :
    ∃ loaded, (if (space.counters.get? id).isSome then space.loadBuffer supply id counter
        else .ok BufferStates.empty) = .ok loaded ∧
      Option.Rel BufferState.Alike (states.get? id) (loaded.get? id) ∧
      (∀ id', id' ≠ id → loaded.get? id' = none) ∧
        (states.get? id = none → loaded = BufferStates.empty) ∧
      ∀ p, states.get? id = some p → space.Keeps id p counter := by
  cases hstate : states.get? id with
  | none =>
    rw [hstate] at h
    rw [show space.counters.get? id = none from h]
    exact ⟨BufferStates.empty, rfl, .none, fun _ _ => rfl, fun _ => rfl, nofun⟩
  | some p =>
    rw [hstate] at h
    obtain ⟨counter', hkeeps⟩ := h
    rw [hkeeps.get, elim_some, hkeeps.valid] at hdecode
    obtain rfl := ok.inj hdecode
    obtain ⟨loaded, q, hload, honly, halike⟩ := hkeeps.load supply
    rw [hkeeps.get]
    refine ⟨loaded, hload, ?_, honly.alone, nofun, fun p' hp => ?_⟩
    · rw [honly.get]
      exact .some halike
    · exact some.inj hp ▸ hkeeps

/-- A name is free over the loaded buffer as it is free in the catalogue. -/
theorem named_loaded {loaded : BufferStates}
    (hloaded : states.get? change.metadata.id = none → loaded = BufferStates.empty) :
    states.get? change.metadata.id = none → loaded.named change.metadata.name = none := by
  intro hnone
  rw [hloaded hnone]
  rfl

theorem deltasOf_insert (counters : SortedMap Identity Counter)
    (checkpoints : SortedMap Identity BufferChange)
    (deltas : SortedMap Identity (SortedMap ℕ (BufferChange × ℕ))) (id : Identity)
    (map : SortedMap ℕ (BufferChange × ℕ)) :
    (⟨counters, checkpoints, deltas.insert id map⟩ : BufferSpace).deltasOf id = map := by
  unfold deltasOf
  dsimp only
  rw [get?_insert_self, getD_some]

/-- The other buffers' entries stay. -/
theorem agreeAt_insert {c : Counter} {checkpoints : SortedMap Identity BufferChange}
    {map : SortedMap ℕ (BufferChange × ℕ)}
    (hcheckpoints : ∀ id', id' ≠ id → checkpoints.get? id' = batch.checkpoints.get? id') :
    ∀ id', id' ≠ id → AgreeAt batch
      ⟨batch.counters.insert id c, checkpoints, batch.deltas.insert id map⟩ id' := by
  intro id' hne
  refine ⟨get?_insert_of_ne hne, hcheckpoints id' hne, ?_⟩
  unfold deltasOf
  dsimp only
  rw [get?_insert_of_ne hne]

theorem writeCheckpoint_spec (hagree : AgreeAt space batch change.metadata.id)
    (hholds : space.HoldsAt change.metadata.id (states.get? change.metadata.id))
    (hdecode : (space.counters.get? change.metadata.id).elim (.ok Counter.default) Counter.decode =
      .ok counter)
    (hreplay : states.replay supply₀ change = .ok states')
    (h : writeCheckpoint encode supply space batch change (space.counters.get? change.metadata.id)
      counter = .ok batch') :
    batch'.HoldsAt change.metadata.id (states'.get? change.metadata.id) ∧
      ∀ id', id' ≠ change.metadata.id → AgreeAt batch batch' id' := by
  obtain ⟨loaded, hload, hget, halone, hempty, -⟩ := hholds.loaded supply hdecode
  obtain ⟨text, text', rfl, hrefuses, htext, hloaded, hcontent⟩ :=
    BufferStates.replay_alike supply hget (named_loaded hempty) hreplay
  unfold writeCheckpoint at h
  dsimp only at h
  rw [hload] at h
  dsimp only at h
  rw [hloaded] at h
  dsimp only at h
  have hself := loaded.get?_insert_self ⟨change.metadata, change.revision, text', change.deleted, 0⟩
  dsimp only at hself
  rw [hself, elim_some] at h
  split at h
  · cases h
  rename_i checkpoint hcheckpoint
  split at h
  · cases h
  obtain rfl := ok.inj h
  obtain ⟨hlost, hzero⟩ := plain_replayed hrefuses htext
  refine ⟨?_, agreeAt_insert fun id' hne => get?_insert_of_ne hne⟩
  have hself' := states.get?_insert_self ⟨change.metadata, change.revision, text, change.deleted, 0⟩
  dsimp only at hself'
  rw [hself']
  have hdeltas : (batch.deltasOf change.metadata.id).retain (fun key _ =>
      ((space.deltasOf change.metadata.id).get? key).isNone) = SortedMap.empty := by
    refine ext_get? fun key => ?_
    rw [get?_retain, hagree.deltas, get?_empty, filter_eq_none_iff]
    intro value hvalue
    rw [hvalue]
    exact nofun
  refine ⟨⟨change.revision, 0, 0⟩, get?_insert_self, ?_, rfl, ?_, fun supply' => ?_⟩
  · unfold Counter.decode
    rw [if_neg (by simp [maxDeltas, maxDeltaBytes])]
  · rw [deltasOf_insert, hdeltas]
    exact nofun
  · obtain ⟨hmeta, r, hr, halike⟩ := replay_checkpoint supply' (hzero ·) hlost hcheckpoint
    have hkey : r.metadata.id = change.metadata.id := by rw [halike.metadata]
    refine ⟨BufferStates.empty.insert r, r, ?_, only_insert hkey fun _ _ => rfl, ?_⟩
    · unfold loadBuffer decodeChange
      rw [get?_insert_self, deltasOf_insert, hdeltas]
      dsimp only
      rw [if_neg (not_not.mpr (by rw [hmeta]))]
      dsimp only
      rw [hr]
      dsimp only [SortedMap.empty, loadDeltas]
      have hrself := BufferStates.empty.get?_insert_self r
      rw [hkey] at hrself
      rw [hrself, map_some, halike.revision]
      simp
    · exact ⟨halike.metadata, halike.revision, halike.text.trans hcontent, halike.deleted⟩

/-- A change behind those since the checkpoint. -/
theorem writeDelta_spec {len : ℕ} {p : BufferState} (hagree : AgreeAt space batch change.metadata.id)
    (hkeeps : space.Keeps change.metadata.id p counter)
    (hstate : states.get? change.metadata.id = some p) (hlt : counter.revision < change.revision)
    (hdeltas : counter.deltas + 1 < maxDeltas)
    (hbytes : saturatingAdd counter.bytes len < maxDeltaBytes)
    (hreplay : states.replay supply₀ change = .ok states') :
    (⟨batch.counters.insert change.metadata.id
        ⟨change.revision, counter.deltas + 1, saturatingAdd counter.bytes len⟩, batch.checkpoints,
      batch.deltas.insert change.metadata.id
        ((batch.deltasOf change.metadata.id).insert change.revision (change, len))⟩ :
      BufferSpace).HoldsAt change.metadata.id (states'.get? change.metadata.id) := by
  have hsum : saturatingAdd counter.bytes len = counter.bytes + len := by
    unfold saturatingAdd at hbytes ⊢
    unfold maxDeltaBytes at hbytes
    omega
  have hlist : ((batch.deltasOf change.metadata.id).insert change.revision (change, len)).list =
      (space.deltasOf change.metadata.id).list ++ [(change.revision, change, len)] := by
    rw [hagree.deltas]
    exact list_insert_of_lt fun e he => (hkeeps.keys e he).trans_lt hlt
  obtain ⟨text, text', rfl, -⟩ := BufferStates.replay_alike supply₀
    (BufferStates.option_rel_alike_refl (states.get? change.metadata.id))
    (fun hnone => nomatch hnone.symm.trans hstate) hreplay
  have hself := states.get?_insert_self ⟨change.metadata, change.revision, text, change.deleted, 0⟩
  dsimp only at hself
  rw [hself]
  refine ⟨_, get?_insert_self, ?_, rfl, ?_, fun supply' => ?_⟩
  · unfold Counter.decode
    rw [if_neg]
    rintro (⟨hzero, -⟩ | hmany | hlong)
    · exact absurd (show change.revision = 0 from hzero) (by omega)
    · exact absurd hmany (not_le.mpr hdeltas)
    · exact absurd hlong (not_le.mpr hbytes)
  · rw [deltasOf_insert, hlist]
    intro e he
    rcases mem_append.mp he with hold | hnew
    · exact ((hkeeps.keys e hold).trans_lt hlt).le
    · rw [mem_singleton.mp hnew]
  · obtain ⟨loaded, q, hload, honly, halike⟩ := hkeeps.load supply'
    obtain ⟨checkpoint, first, hcheckpoint, hid, hfirst, hloop⟩ := loadBuffer_eq_ok hload
    have hget : Option.Rel BufferState.Alike (states.get? change.metadata.id)
        (loaded.get? change.metadata.id) := by
      rw [hstate, honly.get]
      exact .some halike
    obtain ⟨text₁, text₂, hsame, -, -, hnext, hcontent⟩ := BufferStates.replay_alike supply' hget
      (fun hnone => nomatch hnone.symm.trans hstate) hreplay
    have htext : text₁ = text := by
      have heq := congrArg (fun s => s.get? change.metadata.id) hsame
      have hself₁ := states.get?_insert_self ⟨change.metadata, change.revision, text₁,
        change.deleted, 0⟩
      dsimp only at heq hself₁
      rw [hself, hself₁] at heq
      exact (congrArg BufferState.text (some.inj heq)).symm
    rw [htext] at hcontent
    refine ⟨_, ⟨change.metadata, change.revision, text₂, change.deleted, 0⟩, ?_,
      only_insert rfl honly.alone, rfl, rfl, hcontent, rfl⟩
    unfold loadBuffer decodeChange
    rw [deltasOf_insert, hlist]
    dsimp only
    rw [hagree.checkpoints, hcheckpoint]
    dsimp only
    rw [if_neg (not_not.mpr hid)]
    dsimp only
    rw [hfirst]
    dsimp only
    rw [loadDeltas_concat (by omega) rfl hnext hloop]
    have hself₂ := loaded.get?_insert_self ⟨change.metadata, change.revision, text₂, change.deleted, 0⟩
    dsimp only at hself₂ ⊢
    rw [hself₂, hsum]
    simp

/-- **A change is written behind the others, or into a new checkpoint.** -/
theorem writeChange_spec (hagree : AgreeAt space batch change.metadata.id)
    (hholds : space.HoldsAt change.metadata.id (states.get? change.metadata.id))
    (hreplay : states.replay supply₀ change = .ok states')
    (h : writeChange encode supply space batch change = .ok batch') :
    batch'.HoldsAt change.metadata.id (states'.get? change.metadata.id) ∧
      ∀ id', id' ≠ change.metadata.id → AgreeAt batch batch' id' := by
  unfold writeChange at h
  dsimp only at h
  split at h
  · cases h
  rename_i counter hdecode
  split at h
  · cases h
  rename_i hfollows
  split at h
  · cases h
  rename_i len hencode
  split at h
  · exact writeCheckpoint_spec hagree hholds hdecode hreplay h
  rename_i hsmall
  obtain rfl := ok.inj h
  push Not at hfollows hsmall
  obtain ⟨-, -, -, -, -, hkeeps⟩ := hholds.loaded supply hdecode
  cases hstate : states.get? change.metadata.id with
  | none =>
    rw [hstate] at hholds
    rw [show space.counters.get? change.metadata.id = none from hholds] at hsmall
    exact absurd rfl hsmall.1
  | some p =>
    have hkeep := hkeeps p hstate
    have hlt := hfollows.1 (by rw [hkeep.get]; rfl)
    exact ⟨writeDelta_spec hagree hkeep hstate hlt hsmall.2.2.1 hsmall.2.2.2 hreplay,
      agreeAt_insert fun _ _ => rfl⟩

/-- The changes of a commit, of different buffers. -/
theorem writeChangesTo_spec : ∀ {changes : List BufferChange} {batch batch' : BufferSpace}
    {states states' : BufferStates}, (changes.map fun change => change.metadata.id).Nodup →
      (∀ change ∈ changes, AgreeAt space batch change.metadata.id) → batch.Holds states →
      states.replayAll supply₀ changes = .ok states' →
      writeChangesTo encode supply space batch changes = .ok batch' → batch'.Holds states'
  | [], batch, batch', states, states', _, _, hholds, hreplay, h => by
    obtain rfl := ok.inj h
    obtain rfl := ok.inj hreplay
    exact hholds
  | change :: changes, batch, batch', states, states', hids, hagree, hholds, hreplay, h => by
    unfold writeChangesTo at h
    unfold BufferStates.replayAll at hreplay
    split at h
    · cases h
    rename_i batch₁ hwrite
    split at hreplay
    · cases hreplay
    rename_i states₁ hfirst
    rw [map_cons, nodup_cons] at hids
    have hself := hagree change mem_cons_self
    have hspace : space.HoldsAt change.metadata.id (states.get? change.metadata.id) := by
      refine AgreeAt.holdsAt ⟨?_, ?_, ?_⟩ (hholds change.metadata.id)
      · exact hself.counters.symm
      · exact hself.checkpoints.symm
      · exact hself.deltas.symm
    obtain ⟨hat, hother⟩ := writeChange_spec hself hspace hfirst hwrite
    obtain ⟨text, -, -, hstates⟩ := BufferStates.replay_eq_ok hfirst
    refine writeChangesTo_spec hids.2 (fun other hmem => ?_) (fun id => ?_) hreplay h
    · have hne : other.metadata.id ≠ change.metadata.id := fun heq =>
        hids.1 (mem_map.mpr ⟨other, hmem, heq⟩)
      have hbefore := hagree other (mem_cons_of_mem _ hmem)
      have hafter := hother _ hne
      exact ⟨hafter.counters.trans hbefore.counters, hafter.checkpoints.trans hbefore.checkpoints,
        hafter.deltas.trans hbefore.deltas⟩
    by_cases hid : id = change.metadata.id
    · rwa [hid]
    · rw [hstates, states.get?_insert_of_ne _ hid]
      exact (hother id hid).holdsAt (hholds id)

/-- **The store holds what the log replays to.** -/
theorem Holds.writeLog : ∀ {log : List RootCommit} {space space' : BufferSpace}
    {states states' : BufferStates},
      (∀ commit ∈ log, (commit.bufferChanges.map fun change => change.metadata.id).Nodup) →
      space.Holds states → states.replayLog supply₀ log = .ok states' →
      space.writeLog encode supply log = .ok space' → space'.Holds states'
  | [], space, space', states, states', _, hholds, hreplay, h => by
    obtain rfl := ok.inj h
    obtain rfl := ok.inj hreplay
    exact hholds
  | commit :: log, space, space', states, states', hids, hholds, hreplay, h => by
    unfold BufferSpace.writeLog at h
    unfold BufferStates.replayLog at hreplay
    split at h
    · cases h
    rename_i space₁ hwrite
    split at hreplay
    · cases hreplay
    rename_i states₁ hfirst
    obtain ⟨hcommit, hrest⟩ := forall_mem_cons.mp hids
    have hholds₁ := writeChangesTo_spec hcommit (fun _ _ => ⟨rfl, rfl, rfl⟩) hholds hfirst hwrite
    exact hholds₁.writeLog hrest hreplay h

end Steps

/-! ## Loading -/

/-- What is persisted of the buffer of an id. -/
def recordOf (states : BufferStates) (id : Identity) : List PersistedBufferState :=
  ((states.get? id).map BufferState.persisted).toList

theorem loadBuffersFrom_eq {states : BufferStates} (supply : Supply) :
    ∀ {l : List (Identity × Counter)},
      (∀ e ∈ l, ∃ p, states.get? e.1 = some p ∧ space.Keeps e.1 p e.2) →
      space.loadBuffersFrom supply l = .ok (l.flatMap fun e => recordOf states e.1)
  | [], _ => rfl
  | (id, counter) :: l, h => by
    obtain ⟨⟨p, hp, hkeeps⟩, hrest⟩ := forall_mem_cons.mp h
    obtain ⟨loaded, q, hload, honly, halike⟩ := hkeeps.load supply
    have hrecord : loaded.persisted = recordOf states id := by
      rw [honly.persisted]
      unfold recordOf
      rw [hp]
      unfold BufferState.persisted
      rw [halike.metadata, halike.revision, halike.text, halike.deleted]
      rfl
    unfold loadBuffersFrom
    rw [hkeeps.valid]
    dsimp only
    rw [hload]
    dsimp only
    rw [loadBuffersFrom_eq supply hrest, hrecord]
    rfl

/-- **The store loads the buffers that it holds.** -/
theorem Holds.loadBuffers {states : BufferStates} (h : space.Holds states) (supply : Supply) :
    space.loadBuffers supply = .ok states.persisted := by
  have hkeeps : ∀ e ∈ space.counters.list, ∃ p, states.get? e.1 = some p ∧ space.Keeps e.1 p e.2 := by
    intro e he
    have hget := get?_eq_some.mpr he
    have hid := h e.1
    rcases hp : states.get? e.1 with _ | p
    · rw [hp] at hid
      cases hget.symm.trans hid
    rw [hp] at hid
    obtain ⟨counter, hkeep⟩ := hid
    obtain rfl := some.inj (hget.symm.trans hkeep.get)
    exact ⟨p, rfl, hkeep⟩
  have hkeys : space.counters.keys = states.entries.keys := by
    refine eq_of_mem_iff space.counters.pairwise_keys states.entries.pairwise_keys fun id => ?_
    rw [SortedMap.mem_keys, SortedMap.mem_keys]
    have hid := h id
    change _ ↔ (states.get? id).isSome = true
    cases hp : states.get? id with
    | none =>
      rw [hp] at hid
      rw [show space.counters.get? id = none from hid]
      rfl
    | some p =>
      rw [hp] at hid
      obtain ⟨counter, hkeep⟩ := hid
      rw [hkeep.get]
      rfl
  unfold BufferSpace.loadBuffers
  rw [loadBuffersFrom_eq supply hkeeps]
  have hflat : ∀ l : List (Identity × Counter), (l.flatMap fun e => recordOf states e.1) =
      (l.map Prod.fst).flatMap (recordOf states) := fun l => (flatMap_map ..).symm
  rw [hflat]
  change Except.ok (space.counters.keys.flatMap _) = _
  rw [hkeys]
  unfold SortedMap.keys BufferStates.persisted
  rw [flatMap_map, map_eq_flatMap]
  refine congrArg Except.ok (flatMap_congr fun e he => ?_)
  unfold recordOf
  have hget : states.get? e.1 = some e.2 := get?_eq_some.mpr he
  rw [hget]
  rfl

end BufferSpace

end Mica
