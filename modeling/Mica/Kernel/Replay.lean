import Mica.Kernel.Staged

/-!
# Kernel/Replay — a kernel from its commit log

A restart replays the persisted commits: buffers first, then the catalogue, then the facts of durable
relations, each checked again.  A volatile buffer comes back empty, under the revision after the
last one that was persisted, so that the number of the text that was lost is not used again.
-/

open SortedList

namespace Mica

/-! ## Buffers -/

/-- What is persisted of a buffer. -/
structure PersistedBufferState where
  metadata : BufferMetadata
  revision : ℕ
  text : List Char
  deleted : Bool
  deriving DecidableEq

/-- `PersistedBufferState` of a state. -/
def BufferState.persisted (state : BufferState) : PersistedBufferState :=
  ⟨state.metadata, state.revision, state.text.toText, state.deleted⟩

/-- A record that no buffer has left. -/
def PersistedBufferState.isInvalid (record : PersistedBufferState) : Bool :=
  (record.revision = 0 && (record.text ≠ [] || record.deleted)) || (record.deleted && record.text ≠ [])

/-- The revision and the text with which a buffer comes back. -/
def PersistedBufferState.restored (supply : Supply) (record : PersistedBufferState) :
    Except KernelError (ℕ × Text) :=
  if record.metadata.durability = .volatile ∧ record.deleted = false ∧ record.revision ≠ 0 then
    match Materializing.checkedAdd record.revision 1 with
    | none => .error (.buffer record.metadata.id .revisionExhausted)
    | some revision => .ok (revision, Text.empty)
  else .ok (record.revision, Text.fromText record.text supply)

namespace BufferStates

/-- The loop of `restore`. -/
def restoreFrom (supply : Supply) : BufferStates → List PersistedBufferState →
    Except KernelError BufferStates
  | states, [] => .ok states
  | states, record :: records =>
    if record.isInvalid || (states.get? record.metadata.id).isSome
        || (states.named record.metadata.name).isSome then
      .error (.buffer record.metadata.id .invalidRecovery)
    else
      match record.restored supply with
      | .error e => .error e
      | .ok (revision, text) =>
        restoreFrom supply (states.insert ⟨record.metadata, revision, text, record.deleted, 0⟩) records

/-- `BufferStates::restore`. -/
def restore (supply : Supply) (records : List PersistedBufferState) :
    Except KernelError BufferStates :=
  restoreFrom supply empty records

/-- A creation that writes no text. -/
def isEmptyCreation (previous : Option BufferState) (change : BufferChange) : Bool :=
  previous.isNone && change.baseRevision = 0 && change.revision = 0 && change.delta.isEmpty
    && !change.deleted

/-- Whether `replay` refuses a change. -/
def refuses (states : BufferStates) (change : BufferChange) : Bool :=
  let previous := states.get? change.metadata.id
  let previousRevision := previous.elim 0 BufferState.revision
  (!isEmptyCreation previous change
      && (change.revision ≤ previousRevision || change.revision ≤ change.baseRevision))
    || (previous.isNone && change.baseRevision ≠ 0)
    || change.baseRevision < previousRevision
    || previous.any (fun state => state.metadata ≠ change.metadata || state.deleted)
    || (change.metadata.durability = .durable && change.baseRevision ≠ previousRevision)
    || (previous.isNone && (states.named change.metadata.name).isSome)

/-- The text behind a change. -/
def replayedText (supply : Supply) (states : BufferStates) (change : BufferChange) :
    Except KernelError Text :=
  if change.deleted || change.metadata.durability = .volatile then .ok Text.empty
  else
    match change.delta.apply ((states.get? change.metadata.id).elim Text.empty BufferState.text)
      supply with
    | .error e => .error (.buffer change.metadata.id (.delta e))
    | .ok text => .ok text

/-- `BufferStates::replay`. -/
def replay (supply : Supply) (states : BufferStates) (change : BufferChange) :
    Except KernelError BufferStates :=
  if states.refuses change then .error (.buffer change.metadata.id .invalidRecovery)
  else
    match states.replayedText supply change with
    | .error e => .error e
    | .ok text => .ok (states.insert ⟨change.metadata, change.revision, text, change.deleted, 0⟩)

/-- The changes of a commit. -/
def replayAll (supply : Supply) : BufferStates → List BufferChange → Except KernelError BufferStates
  | states, [] => .ok states
  | states, change :: changes =>
    match states.replay supply change with
    | .error e => .error e
    | .ok states => replayAll supply states changes

/-- `BufferStates::persisted`. -/
def persisted (states : BufferStates) : List PersistedBufferState :=
  states.entries.list.map fun e => e.2.persisted

/-- `validate_catalog`. -/
def validateCatalog {M : Type → Type} [ByteMap M] (states : BufferStates)
    (relations : SortedMap RelationId (RelationState M)) : Except KernelError Unit :=
  match states.entries.list.find? fun e => (relations.get? e.2.metadata.id).isSome
      || relations.list.any fun r => r.2.metadata.name = e.2.metadata.name with
  | some e => .error (.buffer e.2.metadata.id .metadataMismatch)
  | none => .ok ()

end BufferStates

/-! ## Catalogue and facts -/

section Load

variable {M : Type → Type} [ByteMap M]

/-- What the log has come to so far. -/
structure Replayed (M : Type → Type) [ByteMap M] where
  relations : SortedMap RelationId (RelationState M)
  rules : List RuleDefinition
  buffers : BufferStates

namespace Replayed

def empty : Replayed M := ⟨SortedMap.empty, [], BufferStates.empty⟩

/-- One change of the catalogue. -/
def catalogChange (r : Replayed M) : CatalogChange → Except KernelError (Replayed M)
  | .relationCreated metadata =>
    match (RelationState.empty metadata : Except KernelError (RelationState M)) with
    | .error e => .error e
    | .ok state => .ok { r with relations := r.relations.insert metadata.id state }
  | .ruleInstalled rule =>
    match validateRuleAgainstRelations r.relations rule.rule with
    | .error e => .error e
    | .ok () =>
      match validateActive (r.rules ++ [rule]) with
      | .error e => .error e
      | .ok () => .ok { r with rules := r.rules ++ [rule] }
  | .ruleDisabled ruleId =>
    match disableRuleIn ruleId r.rules with
    | .error e => .error e
    | .ok rules => .ok { r with rules := rules }

def catalogChanges : Replayed M → List CatalogChange → Except KernelError (Replayed M)
  | r, [] => .ok r
  | r, change :: changes =>
    match r.catalogChange change with
    | .error e => .error e
    | .ok r => catalogChanges r changes

/-- One fact of a relation, unless the relation is volatile. -/
def factChange (r : Replayed M) (change : FactChange) : Except KernelError (Replayed M) :=
  match r.relations.get? change.relation with
  | none => .error (.unknownRelation change.relation)
  | some state =>
    if state.metadata.durability = .volatile then .ok r
    else if state.metadata.arity ≠ change.tuple.length then
      .error (.arityMismatch change.relation state.metadata.arity change.tuple.length)
    else
      let state := match change.kind with
        | .assert => (state.insert change.tuple).1
        | .retract => (state.remove change.tuple).1
      .ok { r with relations := r.relations.insert change.relation state }

def factChanges : Replayed M → List FactChange → Except KernelError (Replayed M)
  | r, [] => .ok r
  | r, change :: changes =>
    match r.factChange change with
    | .error e => .error e
    | .ok r => factChanges r changes

/-- One commit: buffers, catalogue, facts. -/
def commit (supply : Supply) (r : Replayed M) (commit : RootCommit) :
    Except KernelError (Replayed M) :=
  match r.buffers.replayAll supply commit.bufferChanges with
  | .error e => .error e
  | .ok buffers =>
    match catalogChanges { r with buffers := buffers } commit.facts.catalogChanges with
    | .error e => .error e
    | .ok r => r.factChanges commit.facts.changes

def commits (supply : Supply) : Replayed M → List RootCommit → Except KernelError (Replayed M)
  | r, [] => .ok r
  | r, commit :: rest =>
    match r.commit supply commit with
    | .error e => .error e
    | .ok r => commits supply r rest

theorem commits_append (supply : Supply) : ∀ (log log' : List RootCommit) (r : Replayed M),
    commits supply r (log ++ log') = (commits supply r log).bind fun r => commits supply r log'
  | [], _, _ => rfl
  | commit :: log, log', r => by
    rw [List.cons_append, commits, commits]
    cases r.commit supply commit with
    | error e => rfl
    | ok r => exact commits_append supply log log' r

end Replayed

/-- The version of the last commit of a log. -/
def lastVersion (log : List RootCommit) : ℕ :=
    (log.getLast?.map fun commit => commit.facts.version).getD 0

namespace RelationKernel

/-- `load_from_commit_log`. -/
def loadFromCommitLog (supply : Supply) (log : List RootCommit) : Except KernelError (Root M) :=
  match Replayed.empty.commits supply log with
  | .error e => .error e
  | .ok r =>
    match r.buffers.validateCatalog r.relations with
    | .error e => .error e
    | .ok () =>
      match BufferStates.restore supply r.buffers.persisted with
      | .error e => .error e
      | .ok buffers =>
        .ok ⟨⟨lastVersion log, r.relations, r.rules, log.map RootCommit.facts⟩, buffers⟩

end RelationKernel

end Load

end Mica
