import Mica.Buffer.Delta
import Mica.Lib.SortedList

/-!
# Buffer/Store — published buffers, and what a transaction makes of them

A transaction edits its own view of a buffer.  When it commits, `materializeBuffers` compares the view
with the state it started from, moves the edits behind those that were published since, and publishes
the new text with its delta.
-/

open SortedList SpanEdit

namespace Mica

inductive BufferConflictPolicy where
  | reject | span | whole
  deriving DecidableEq

structure BufferMetadata where
  id : Identity
  name : Symbol
  durability : RelationDurability
  conflict : BufferConflictPolicy
  deriving DecidableEq

structure BufferState where
  metadata : BufferMetadata
  revision : ℕ
  text : Text
  deleted : Bool
  structureEpoch : ℕ

structure BufferChange where
  metadata : BufferMetadata
  baseRevision : ℕ
  revision : ℕ
  delta : Delta
  deleted : Bool
  deriving DecidableEq

/-- The buffers of a snapshot, by identity and by name. -/
structure BufferStates where
  entries : SortedMap Identity BufferState
  names : List (Symbol × Identity)
  keyed : ∀ id state, entries.get? id = some state → state.metadata.id = id

namespace BufferStates

/-- `BufferStates::default`. -/
def empty : BufferStates := ⟨SortedMap.empty, [], nofun⟩

def get? (states : BufferStates) (id : Identity) : Option BufferState := states.entries.get? id

def named (states : BufferStates) (name : Symbol) : Option BufferState :=
  (states.names.lookup name).bind states.get?

/-- `BufferStates::insert`. -/
def insert (states : BufferStates) (state : BufferState) : BufferStates where
  entries := states.entries.insert state.metadata.id state
  names :=
    if states.names.lookup state.metadata.name = some state.metadata.id then states.names
    else (state.metadata.name, state.metadata.id) :: states.names
  keyed := by
    intro id state' h
    rw [SortedMap.get?_insert] at h
    split at h
    · next hid =>
      rw [← Option.some.inj h]
      exact hid.symm
    · exact states.keyed id state' h

theorem get?_insert_self (states : BufferStates) (state : BufferState) :
    (states.insert state).get? state.metadata.id = some state := SortedMap.get?_insert_self

theorem get?_insert_of_ne (states : BufferStates) (state : BufferState) {id : Identity}
    (h : id ≠ state.metadata.id) : (states.insert state).get? id = states.get? id :=
  SortedMap.get?_insert_of_ne h

end BufferStates

/-! ## What a transaction writes -/

structure PendingBuffer where
  metadata : BufferMetadata
  base : Option BufferState
  text : Text
  deleted : Bool
  touched : Bool
  «sealed» : Bool
  compact : Bool
  reverted : Bool

/-- The buffers of a transaction: the states it started from, and its writes. -/
structure BufferTransaction where
  base : BufferStates
  bufferWrites : SortedMap Identity PendingBuffer

/-- New chunks are elsewhere than those of a text that is alive. -/
def Supply.above (supply : Supply) (text : Text) : Supply :=
  { supply with chunk := max supply.chunk text.bound }

theorem Supply.bound_le_above (supply : Supply) (text : Text) :
    text.bound ≤ (supply.above text).chunk := le_max_right _ _

namespace BufferTransaction

/-- A transaction that has written nothing. -/
def new (base : BufferStates) : BufferTransaction := ⟨base, SortedMap.empty⟩

/-- `Snapshot::buffer`. -/
def baseBuffer (tx : BufferTransaction) (id : Identity) : Except KernelError BufferState :=
  match tx.base.get? id with
  | none => .error (.buffer id .unknown)
  | some state => if state.deleted then .error (.buffer id .deleted) else .ok state

/-- `buffer_text`. -/
def bufferText (tx : BufferTransaction) (id : Identity) : Except KernelError Text :=
  match tx.bufferWrites.get? id with
  | some pending => if pending.deleted then .error (.buffer id .deleted) else .ok pending.text
  | none =>
    match tx.baseBuffer id with
    | .error e => .error e
    | .ok state => .ok state.text

/-- `ensure_buffer_mutable`. -/
def ensureBufferMutable (tx : BufferTransaction) (id : Identity) : Except KernelError Unit :=
  match tx.bufferWrites.get? id with
  | some pending => if pending.sealed then .error (.buffer id .alreadyApplied) else .ok ()
  | none => .ok ()

/-- `buffer_write`: the write of a buffer, begun if there is none. -/
def bufferWrite (tx : BufferTransaction) (id : Identity) : Except KernelError PendingBuffer :=
  match tx.ensureBufferMutable id with
  | .error e => .error e
  | .ok () =>
    match tx.bufferWrites.get? id with
    | some pending => if pending.deleted then .error (.buffer id .deleted) else .ok pending
    | none =>
      match tx.baseBuffer id with
      | .error e => .error e
      | .ok base => .ok ⟨base.metadata, some base, base.text, false, false, false, false, false⟩

/-- The text that a transaction started from stays alive. -/
def baseText (tx : BufferTransaction) (id : Identity) : Text :=
  match tx.base.get? id with
  | some state => state.text
  | none => Text.empty

/-- `replace_buffer`. -/
def replaceBuffer (tx : BufferTransaction) (id : Identity) (start stop : ℕ) (text : List Char)
    (supply : Supply) : Except KernelError BufferTransaction :=
  match tx.ensureBufferMutable id with
  | .error e => .error e
  | .ok () =>
    match tx.bufferText id with
    | .error e => .error e
    | .ok previous =>
      match previous.replace start stop text (supply.above (tx.baseText id)) with
      | .error e => .error (.buffer id (.text e))
      | .ok next =>
        if previous.sharesRoot next then .ok tx
        else
          match tx.bufferWrite id with
          | .error e => .error e
          | .ok pending => .ok { tx with
              bufferWrites := tx.bufferWrites.insert id
                { pending with text := next, touched := true } }

/-- What a replacement that succeeds has done. -/
theorem replaceBuffer_cases {tx tx' : BufferTransaction} {id : Identity} {start stop : ℕ}
    {text : List Char} {supply : Supply} (h : tx.replaceBuffer id start stop text supply = .ok tx') :
    tx' = tx ∨ ∃ previous next pending, tx.bufferText id = .ok previous ∧
      tx.bufferWrite id = .ok pending ∧
      previous.replace start stop text (supply.above (tx.baseText id)) = .ok next ∧
      tx' = { tx with
        bufferWrites := tx.bufferWrites.insert id
          { pending with text := next, touched := true } } := by
  unfold replaceBuffer at h
  split at h
  · cases h
  split at h
  · cases h
  rename_i previous hprevious
  split at h
  · cases h
  rename_i next hnext
  split at h
  · exact Or.inl (Except.ok.inj h).symm
  · split at h
    · cases h
    rename_i pending hpending
    exact Or.inr ⟨previous, next, pending, hprevious, hpending, hnext, (Except.ok.inj h).symm⟩

/-- `buffer_named`. -/
def bufferNamed (tx : BufferTransaction) (name : Symbol) : Option Identity :=
  match tx.bufferWrites.list.find? fun e => e.2.metadata.name = name with
  | some e => some e.1
  | none => (tx.base.named name).map fun state => state.metadata.id

/-- `buffer_metadata`, of which only the errors are used. -/
def checkBuffer (tx : BufferTransaction) (id : Identity) : Except KernelError Unit :=
  match tx.bufferWrites.get? id with
  | some pending => if pending.deleted then .error (.buffer id .deleted) else .ok ()
  | none =>
    match tx.baseBuffer id with
    | .error e => .error e
    | .ok _ => .ok ()

/-- `buffer_revision`. -/
def bufferRevision (tx : BufferTransaction) (id : Identity) : Except KernelError ℕ :=
  match tx.checkBuffer id with
  | .error e => .error e
  | .ok () => .ok ((tx.base.get? id).elim 0 BufferState.revision)

/-- Whether a write has been edited or is closed. -/
def isApplied (tx : BufferTransaction) (id : Identity) : Bool :=
  (tx.bufferWrites.get? id).any fun pending => pending.touched || pending.sealed

/-- `create_buffer`. -/
def createBuffer (relations : List RelationMetadata) (tx : BufferTransaction)
    (metadata : BufferMetadata) : Except KernelError BufferTransaction :=
  if (tx.base.get? metadata.id).isSome || (tx.bufferWrites.get? metadata.id).isSome
      || relations.any (fun m => m.id = metadata.id) || relations.any (fun m => m.name = metadata.name)
      || (tx.bufferNamed metadata.name).isSome then
    .error (.buffer metadata.id .alreadyExists)
  else
    let pending : PendingBuffer := ⟨metadata, none, Text.empty, false, false, false, false, false⟩
    .ok { tx with bufferWrites := tx.bufferWrites.insert metadata.id pending }

/-- A change to the write of a buffer. -/
def updateWrite (tx : BufferTransaction) (id : Identity) (f : PendingBuffer → PendingBuffer) :
    Except KernelError BufferTransaction :=
  match tx.bufferWrite id with
  | .error e => .error e
  | .ok pending => .ok { tx with bufferWrites := tx.bufferWrites.insert id (f pending) }

/-- `delete_buffer`. -/
def deleteBuffer (tx : BufferTransaction) (id : Identity) : Except KernelError BufferTransaction :=
  tx.updateWrite id fun pending =>
    { pending with deleted := true, touched := true, text := Text.empty }

/-- The edits of `apply_buffer`, one after the other. -/
def applyEdits (id : Identity) (supply : Supply) : List Replacement → Text → Except KernelError Text
  | [], text => .ok text
  | edit :: edits, text =>
    match text.replace edit.start edit.stop edit.text supply with
    | .error e => .error (.buffer id (.text e))
    | .ok text => applyEdits id supply edits text

/-- `apply_buffer`; `reserved` is the answer for its token.  A stale revision changes nothing. -/
def applyBuffer (tx : BufferTransaction) (id : Identity) (expected : ℕ) (edits : List Replacement)
    (supply : Supply) (reserved : Except KernelError Unit) : Except KernelError BufferTransaction :=
  match tx.bufferRevision id with
  | .error e => .error e
  | .ok revision =>
    if revision ≠ expected then .ok tx
    else if tx.isApplied id then .error (.buffer id .alreadyApplied)
    else
      match tx.bufferText id with
      | .error e => .error e
      | .ok text =>
        match applyEdits id (supply.above (tx.baseText id)) edits text with
        | .error e => .error e
        | .ok text =>
          match reserved with
          | .error e => .error e
          | .ok () => tx.updateWrite id fun pending => { pending with text := text, «sealed» := true }

/-- `compact_buffer`. -/
def compactBuffer (tx : BufferTransaction) (id : Identity) (supply : Supply) :
    Except KernelError BufferTransaction :=
  match tx.checkBuffer id with
  | .error e => .error e
  | .ok () =>
    if (tx.base.get? id).isNone then .ok tx
    else if tx.isApplied id then .error (.buffer id .alreadyApplied)
    else
      match tx.bufferText id with
      | .error e => .error e
      | .ok text => tx.updateWrite id fun pending => { pending with
          text := Text.fromText text.toText (supply.above (tx.baseText id))
          compact := true, «sealed» := true }

/-- `revert_buffer`; `historical` is what the history of the kernel holds for the revision. -/
def revertBuffer (tx : BufferTransaction) (id : Identity) (revision expected : ℕ)
    (historical : Option BufferState) (supply : Supply) : Except KernelError BufferTransaction :=
  match tx.bufferRevision id with
  | .error e => .error e
  | .ok current =>
    if expected ≠ current ∨ current ≤ revision then .ok tx
    else if tx.isApplied id then .error (.buffer id .alreadyApplied)
    else
      match historical with
      | none => .ok tx
      | some state => tx.updateWrite id fun pending => { pending with
          text := Text.fromText state.text.toText (supply.above (tx.baseText id))
          reverted := true, «sealed» := true }

end BufferTransaction

/-! ## Committing -/

/-- What a write gives: the text, the revision it follows, and the delta. -/
structure BufferResult where
  text : Text
  baseRevision : ℕ
  delta : Delta

/-- The states so far, what is published of them, and what is left of the budget. -/
structure Materializing where
  states : BufferStates
  changes : List BufferChange
  budget : DeltaBudget

namespace Materializing

variable (relations : List RelationMetadata) (supply : Supply)

/-- A buffer that the transaction has created. -/
def created (s : Materializing) (id : Identity) (pending : PendingBuffer) :
    Except KernelError BufferResult :=
  if (s.states.get? id).isSome || (s.states.named pending.metadata.name).isSome
      || relations.any (fun m => m.id = id)
      || relations.any (fun m => m.name = pending.metadata.name) then
    .error (.buffer id (.conflict 0
      (((s.states.get? id).or (s.states.named pending.metadata.name)).elim 0 BufferState.revision)))
  else
    match Delta.complete Text.empty pending.text with
    | .error e => .error (.buffer id (.delta e))
    | .ok delta => .ok ⟨pending.text, 0, delta⟩

/-- The edits of a view, behind those that were published since. -/
def rebased (s : Materializing) (id : Identity) (pending : PendingBuffer) (base latest : BufferState) :
    Except KernelError (BufferResult × DeltaBudget) :=
  match Delta.between base.text pending.text s.budget with
  | .error e => .error (.buffer id (.delta e))
  | .ok (own, budget) =>
    match Delta.between base.text latest.text budget with
    | .error e => .error (.buffer id (.delta e))
    | .ok (concurrent, budget) =>
      match own.transformAfter concurrent with
      | .error .conflict => .error (.buffer id (.conflict base.revision latest.revision))
      | .error e => .error (.buffer id (.delta e))
      | .ok delta =>
        match delta.apply latest.text (supply.above base.text) with
        | .error e => .error (.buffer id (.delta e))
        | .ok text => .ok (⟨text, latest.revision, delta⟩, budget)

/-- A buffer that was there. -/
def edited (s : Materializing) (id : Identity) (pending : PendingBuffer) (base : BufferState) :
    Except KernelError (BufferResult × DeltaBudget) :=
  match s.states.get? id with
  | none => .error (.buffer id .unknown)
  | some latest =>
    if latest.structureEpoch ≠ base.structureEpoch then
      .error (.buffer id (.structureConflict base.structureEpoch latest.structureEpoch))
    else if latest.deleted || (latest.revision != base.revision && (pending.deleted || pending.compact
        || pending.reverted || pending.metadata.conflict = .reject)) then
      .error (.buffer id (.conflict base.revision latest.revision))
    else if pending.compact then .ok (⟨pending.text, latest.revision, Delta.empty⟩, s.budget)
    else if latest.revision = base.revision then
      match Delta.complete base.text pending.text with
      | .error e => .error (.buffer id (.delta e))
      | .ok delta => .ok (⟨pending.text, latest.revision, delta⟩, s.budget)
    else if pending.metadata.conflict = .whole then
      match Delta.new [⟨0, latest.text.len, pending.text.toText⟩] with
      | .error e => .error (.buffer id (.delta e))
      | .ok delta => .ok (⟨pending.text, latest.revision, delta⟩, s.budget)
    else s.rebased supply id pending base latest

/-- The result of a write. -/
def result (s : Materializing) (id : Identity) (pending : PendingBuffer) :
    Except KernelError (BufferResult × DeltaBudget) :=
  match pending.base with
  | none =>
    match s.created relations id pending with
    | .error e => .error e
    | .ok result => .ok (result, s.budget)
  | some base => s.edited supply id pending base

/-- `u64::checked_add`. -/
def checkedAdd (n k : ℕ) : Option ℕ := if n + k < 2 ^ 64 then some (n + k) else none

/-- What is published of a result. -/
def publish (s : Materializing) (id : Identity) (pending : PendingBuffer) (result : BufferResult) :
    Except KernelError (BufferStates × List BufferChange) :=
  let isEmpty := result.delta.isEmpty
  if pending.base.isSome && isEmpty && !pending.deleted && !pending.compact then
    .ok (s.states, s.changes)
  else
    -- publishing the catalogue entry alone does not write text
    let emptyCreation := pending.base.isNone && isEmpty && !pending.deleted
    match if pending.compact || emptyCreation then some result.baseRevision
      else checkedAdd result.baseRevision 1 with
    | none => .error (.buffer id .revisionExhausted)
    | some revision =>
      match checkedAdd ((s.states.get? id).elim 0 BufferState.structureEpoch)
        (if pending.compact || pending.reverted then 1 else 0) with
      | none => .error (.buffer id .revisionExhausted)
      | some structureEpoch =>
        let states := s.states.insert
          ⟨pending.metadata, revision, result.text, pending.deleted, structureEpoch⟩
        if pending.compact then .ok (states, s.changes)
        else .ok (states, s.changes ++
          [⟨pending.metadata, result.baseRevision, revision, result.delta, pending.deleted⟩])

/-- One write. -/
def write (s : Materializing) (id : Identity) (pending : PendingBuffer) :
    Except KernelError Materializing :=
  match s.result relations supply id pending with
  | .error e => .error e
  | .ok (result, budget) =>
    match s.publish id pending result with
    | .error e => .error e
    | .ok (states, changes) => .ok ⟨states, changes, budget⟩

/-- The writes, in the order of the buffers. -/
def writeAll (s : Materializing) : List (Identity × PendingBuffer) → Except KernelError Materializing
  | [] => .ok s
  | (id, pending) :: rest =>
    match s.write relations supply id pending with
    | .error e => .error e
    | .ok s => s.writeAll rest

end Materializing

/-- `materialize_buffers`. -/
def materializeBuffers (relations : List RelationMetadata) (current : BufferStates) (supply : Supply)
    (tx : BufferTransaction) : Except KernelError (BufferStates × List BufferChange) :=
  match Materializing.writeAll relations supply ⟨current, [], .default⟩ tx.bufferWrites.list with
  | .error e => .error e
  | .ok s => .ok (s.states, s.changes)

/-! ## Staged buffers -/

/-- What changed in one buffer; nothing if its revision is the same. -/
def stagedChange (current : BufferStates) (state : BufferState) : Except DeltaError
    (Option BufferChange) :=
  match current.get? state.metadata.id with
  | none =>
    match Delta.complete Text.empty state.text with
    | .error e => .error e
    | .ok delta => .ok (some ⟨state.metadata, 0, state.revision, delta, state.deleted⟩)
  | some previous =>
    if previous.revision = state.revision then .ok none
    else
      match Delta.complete previous.text state.text with
      | .error e => .error e
      | .ok delta =>
        .ok (some ⟨state.metadata, previous.revision, state.revision, delta, state.deleted⟩)

/-- `staged_changes`, over the buffers of the staged state. -/
def stagedChangesOf (relations : List RelationMetadata) (current : BufferStates) :
    List BufferState → Except KernelError (List BufferChange)
  | [] => .ok []
  | state :: states =>
    if (current.get? state.metadata.id).any (fun previous =>
          previous.metadata ≠ state.metadata || state.revision < previous.revision)
        || relations.any (fun m => m.id = state.metadata.id)
        || relations.any (fun m => m.name = state.metadata.name) then
      .error (.buffer state.metadata.id .metadataMismatch)
    else
      match stagedChange current state with
      | .error e => .error (.buffer state.metadata.id (.delta e))
      | .ok change =>
        match stagedChangesOf relations current states with
        | .error e => .error e
        | .ok changes => .ok (change.toList ++ changes)

/-- `staged_changes`; `relations` are those of the staged state. -/
def stagedChanges (relations : List RelationMetadata) (current staged : BufferStates) :
    Except KernelError (List BufferChange) :=
  match current.entries.list.find? fun e => (staged.get? e.1).isNone with
  | some e => .error (.buffer e.1 .metadataMismatch)
  | none => stagedChangesOf relations current (staged.entries.list.map Prod.snd)

end Mica
