import Mica.Runtime.Dispatch

/-!
# Runtime/Task — a program between its boundaries

A task runs a program in segments.  A segment writes to one transaction, and what it emits, sends and
subscribes is kept until the transaction is committed; a conflict starts the segment again.  The
machine is a parameter: it may make any calls on the host, and give any response.
-/

open SortedList

namespace Mica

structure Emission where
  target : Identity
  value : Value
  deriving DecidableEq

structure TaskLimits where
  maxRetries : ℕ
  deriving DecidableEq

inductive SpawnTarget where
  | namedRoles (roles : List (Symbol × Value))
  | positionalArgs (args : List Value)

structure SpawnRequest where
  selector : Symbol
  target : SpawnTarget
  delayMillis : Option ℕ

structure MailboxRecvRequest where
  receivers : List Value
  timeoutMillis : Option ℕ

structure ExternalRequest where
  service : Symbol
  payload : Value
  timeoutMillis : Option ℕ

inductive SuspendKind where
  | commit
  | never
  | timedMillis (millis : ℕ)
  | waitingForInput (request : Option Value)
  | mailboxRecv (request : MailboxRecvRequest)
  | spawn (request : SpawnRequest)
  | externalRequest (request : ExternalRequest)

inductive VmHostResponse where
  | continue
  | commit
  | suspend (kind : SuspendKind)
  | spawn (request : SpawnRequest)
  | complete (value : Value)
  | abort (error : Value)
  | rollbackRetry

inductive TaskOutcome where
  | complete (value : Value) (effects : List Emission) (mailboxSends : List MailboxSend) (retries : ℕ)
  | suspended (kind : SuspendKind) (effects : List Emission) (mailboxSends : List MailboxSend)
      (retries : ℕ)
  | aborted (error : Value) (effects : List Emission) (mailboxSends : List MailboxSend) (retries : ℕ)

/-- The emissions of an outcome. -/
def TaskOutcome.effects : TaskOutcome → List Emission
  | .complete _ effects _ _ => effects
  | .suspended _ effects _ _ => effects
  | .aborted _ effects _ _ => effects

/-- The messages of an outcome. -/
def TaskOutcome.mailboxSends : TaskOutcome → List MailboxSend
  | .complete _ _ mailboxSends _ => mailboxSends
  | .suspended _ _ mailboxSends _ => mailboxSends
  | .aborted _ _ mailboxSends _ => mailboxSends

inductive TaskError where
  | runtime (error : RuntimeError)
  | conflictRetriesExceeded (retries : ℕ)
  | missingTransaction
  deriving DecidableEq

structure BufferWrite where
  buffer : Identity
  token : Option ℕ
  deriving DecidableEq

/-- A transaction, as far as a boundary looks at it. -/
structure TaskTransaction where
  base : ℕ
  writes : List FactChange
  bufferWrites : List BufferWrite
  deriving DecidableEq

namespace TaskTransaction

/-- `RelationKernel::begin` at a version. -/
def begin (version : ℕ) : TaskTransaction := ⟨version, [], []⟩

/-- `Transaction::is_read_only`. -/
def isReadOnly (tx : TaskTransaction) : Bool := tx.writes.isEmpty && tx.bufferWrites.isEmpty

/-- `Transaction::has_tagged_buffer_apply`. -/
def hasTaggedBufferApply (tx : TaskTransaction) : Bool :=
  tx.bufferWrites.any fun pending => pending.token.isSome

end TaskTransaction

/-- What a program may ask of its host that leaves a trace. -/
inductive HostCall where
  | write (change : FactChange)
  | writeBuffer (pending : BufferWrite)
  | emit (target : Identity) (value : Value)
  | sendMailbox (sender value : Value)
  | createMailbox
  | closeMailbox (receiver : Value)
  | subscribeChanges (request : SubscriptionRequest)
  | cancelSubscription (subscription : Value)
  | mintCapability (grant : CapabilityGrant)

/-- The emission that a call makes. -/
def HostCall.emission? : HostCall → Option Emission
  | .emit target value => some ⟨target, value⟩
  | _ => none

/-- The message that a call sends. -/
def HostCall.send? : HostCall → Option MailboxSend
  | .sendMailbox sender value => some ⟨sender, value⟩
  | _ => none

/-- What has happened in a call of `run`: the state at the last successful boundary, what was granted
since; the calls of this attempt that the host accepted, and the subscriptions it was given and that
were not released; and what the segments of this call have produced whose transaction was committed. -/
structure TaskHistory (σ : Type) where
  boundaryVm : σ
  boundaryAuthority : AuthorityContext
  minted : List CapabilityGrant
  attempt : List HostCall
  allocated : List CapabilityId
  produced : List Emission
  producedSends : List MailboxSend

structure Task (σ : Type) where
  authority : AuthorityContext
  vm : σ
  tx : Option TaskTransaction
  retryState : σ
  pendingEffects : List Emission
  committedEffects : List Emission
  pendingMailboxSends : List MailboxSend
  committedMailboxSends : List MailboxSend
  pendingSubscriptions : List SubscriptionOperation
  runtimeContext : RuntimeContext
  retries : ℕ
  limits : TaskLimits
  history : TaskHistory σ

/-- The state of a suspended task. -/
structure TaskState (σ : Type) where
  vmState : σ
  retryState : σ
  retries : ℕ
  limits : TaskLimits

namespace Task

variable {σ : Type}

/-- The history of a call that begins. -/
def historyFrom (vm : σ) (authority : AuthorityContext) : TaskHistory σ :=
  ⟨vm, authority, [], [], [], [], []⟩

/-- `Task::new_with_authority`. -/
def newWithAuthority (vm : σ) (authority : AuthorityContext) (context : RuntimeContext)
    (limits : TaskLimits) (version : ℕ) : Task σ :=
  ⟨authority, vm, some (.begin version), vm, [], [], [], [], [], context, 0, limits,
    historyFrom vm authority⟩

/-- `Task::from_state_with_authority` and `Task::resume_with`, which leaves the machine at `vm`. -/
def resumed (state : TaskState σ) (vm : σ) (authority : AuthorityContext) (context : RuntimeContext)
    (version : ℕ) : Task σ :=
  ⟨authority, vm, some (.begin version), vm, [], [], [], [], [], context, state.retries, state.limits,
    historyFrom vm authority⟩

/-- `Task::checkpoint`. -/
def checkpoint (t : Task σ) : TaskState σ := ⟨t.vm, t.retryState, t.retries, t.limits⟩

/-! ## Calls on the host -/

/-- A call that was accepted. -/
def accept (t : Task σ) (call : HostCall) : Task σ :=
  { t with history := { t.history with attempt := t.history.attempt ++ [call] } }

/-- The calls of `VmHostContext` and `BuiltinContext`; one that is refused changes nothing, except that
numbers may be passed over. -/
def host (t : Task σ) (shared : SubscriptionRuntime) (call : HostCall) :
    Task σ × SubscriptionRuntime :=
  match t.tx with
  | none => (t, shared)
  | some tx =>
    match call with
    | .write change =>
      ({ t.accept call with tx := some { tx with writes := tx.writes ++ [change] } }, shared)
    | .writeBuffer pending =>
      ({ t.accept call with
        tx := some { tx with bufferWrites := tx.bufferWrites ++ [pending] } }, shared)
    | .emit target value =>
      if t.authority.canEffect then
        ({ t.accept call with pendingEffects := t.pendingEffects ++ [⟨target, value⟩] }, shared)
      else (t, shared)
    | .sendMailbox sender value =>
      match shared.mailboxes.mailboxForSender sender with
      | .error _ => (t, shared)
      | .ok _ =>
        ({ t.accept call with
          pendingMailboxSends := t.pendingMailboxSends ++ [⟨sender, value⟩] }, shared)
    | .createMailbox => (t.accept call, { shared with mailboxes := shared.mailboxes.createMailbox.2 })
    | .closeMailbox receiver =>
      match shared.mailboxes.closeMailbox receiver with
      | .error _ => (t, shared)
      | .ok mailboxes => (t.accept call, { shared with mailboxes })
    | .subscribeChanges request =>
      match subscribeChanges t.authority t.runtimeContext request shared.mailboxes with
      | (.error _, mailboxes) => (t, { shared with mailboxes })
      | (.ok operation, mailboxes) =>
        let t := t.accept call
        ({ t with
          pendingSubscriptions := t.pendingSubscriptions ++ [operation]
          history := { t.history with
            allocated := t.history.allocated ++ [operation.capability] } },
          { shared with mailboxes })
    | .cancelSubscription subscription =>
      match cancelSubscription shared.mailboxes subscription with
      | .error _ => (t, shared)
      | .ok operation =>
        ({ t.accept call with pendingSubscriptions := t.pendingSubscriptions ++ [operation] }, shared)
    | .mintCapability grant =>
      let t := t.accept call
      ({ t with
        authority := t.authority.mint grant
        history := { t.history with minted := t.history.minted ++ [grant] } }, shared)

/-! ## Boundaries -/

inductive BoundaryDisposition where
  | continue | finish
  deriving DecidableEq

inductive BoundaryResult where
  | committed | retried
  deriving DecidableEq

/-- What the machine and the kernel give when the machine returns: its state and response; the snapshot
that a boundary sees, the order in which it visits subscriptions, the answer to a commit, and the
version that a new transaction begins on. -/
structure Return (σ : Type) where
  vm : σ
  response : Except RuntimeError VmHostResponse
  published : Published
  order : HashOrder
  committed : Except KernelError Unit
  next : ℕ

/-- The machine asks for a boundary. -/
def Return.asksBoundary (r : Return σ) : Bool :=
  match r.response with
  | .ok .commit => true
  | .ok (.suspend _) => true
  | .ok (.spawn _) => true
  | .ok (.complete _) => true
  | _ => false

/-- The boundary publishes what the segment has written. -/
def publishes (r : Return σ) (t : Task σ) : Bool :=
  r.asksBoundary && (t.tx.any fun tx => !tx.isReadOnly) && r.committed.isOk

/-- `is_retryable_conflict`. -/
def isRetryableConflict : KernelError → Bool
  | .conflict _ => true
  | .buffer _ (.conflict _ _) => true
  | .buffer _ (.structureConflict _ _) => true
  | _ => false

/-- `Task::discard_pending_subscriptions`. -/
def discardPendingSubscriptions (t : Task σ) (shared : SubscriptionRuntime) :
    Task σ × SubscriptionRuntime :=
  ({ t with
    pendingSubscriptions := []
    history := { t.history with allocated := [] } },
    { shared with
      mailboxes := shared.mailboxes.discardPendingSubscriptions t.pendingSubscriptions })

/-- `Task::retry_from_boundary`. -/
def retryFromBoundary (r : Return σ) (t : Task σ) (shared : SubscriptionRuntime) :
    Except TaskError Unit × Task σ × SubscriptionRuntime :=
  if t.limits.maxRetries ≤ t.retries then
    (.error (.conflictRetriesExceeded t.retries), t, shared)
  else
    let t := { t with pendingEffects := [], pendingMailboxSends := [] }
    let (t, shared) := t.discardPendingSubscriptions shared
    (.ok (), { t with
      vm := t.retryState
      tx := some (.begin r.next)
      retries := t.retries + 1
      history := { t.history with attempt := [] } }, shared)

/-- The transaction of the segment was committed: what it has produced counts. -/
def markCommitted (t : Task σ) : Task σ :=
  { t with history := { t.history with
      produced := t.history.produced ++ t.history.attempt.filterMap HostCall.emission?
      producedSends := t.history.producedSends ++ t.history.attempt.filterMap HostCall.send? } }

/-- `Task::finish_successful_boundary`. -/
def finishSuccessfulBoundary (r : Return σ) (disposition : BoundaryDisposition) (t : Task σ) :
    Task σ :=
  let t := { t with
    committedEffects := t.committedEffects ++ t.pendingEffects
    pendingEffects := []
    committedMailboxSends := t.committedMailboxSends ++ t.pendingMailboxSends
    pendingMailboxSends := []
    history := { t.history with
      boundaryVm := t.vm
      boundaryAuthority := t.authority
      minted := []
      attempt := []
      allocated := [] } }
  match disposition with
  | .continue => { t with retryState := t.vm, tx := some (.begin r.next) }
  | .finish => t

/-- `SubscriptionRuntimeHandle::apply_boundary` on the task's operations. -/
def applyBoundary (r : Return σ) (t : Task σ) (shared : SubscriptionRuntime) :
    Except RuntimeError (List ℕ) × Task σ × SubscriptionRuntime :=
  match shared.applyBoundary r.published r.order t.pendingSubscriptions with
  | ((result, taken), shared) =>
    (result, if taken then { t with pendingSubscriptions := [] } else t, shared)

/-- `Task::commit_boundary_with_disposition`. -/
def commitBoundaryWithDisposition (r : Return σ) (disposition : BoundaryDisposition) (t : Task σ)
    (shared : SubscriptionRuntime) :
    Except TaskError BoundaryResult × Task σ × SubscriptionRuntime :=
  match t.tx with
  | none => (.error .missingTransaction, t, shared)
  | some tx =>
    let t := { t with tx := none }
    if tx.isReadOnly then
      match t.applyBoundary r shared with
      | (.error error, t, shared) => (.error (.runtime error), t, shared)
      | (.ok _, t, shared) =>
        (.ok .committed, t.markCommitted.finishSuccessfulBoundary r disposition, shared)
    else
      match r.committed with
      | .ok () =>
        match t.markCommitted.applyBoundary r shared with
        | (.error error, t, shared) => (.error (.runtime error), t, shared)
        | (.ok _, t, shared) =>
          (.ok .committed, t.finishSuccessfulBoundary r disposition, shared)
      | .error error =>
        if !tx.hasTaggedBufferApply && isRetryableConflict error then
          match t.retryFromBoundary r shared with
          | (.error error, t, shared) => (.error error, t, shared)
          | (.ok (), t, shared) => (.ok .retried, t, shared)
        else
          let (t, shared) := t.discardPendingSubscriptions shared
          (.error (.runtime (.kernel error)), { t with tx := some (.begin r.next) }, shared)

/-- `take_committed_effects` and `take_committed_mailbox_sends`. -/
def takeCommitted (t : Task σ) : Task σ :=
    { t with committedEffects := [], committedMailboxSends := [] }

/-- A boundary that ends the call, unless the segment is retried. -/
def endAtBoundary (r : Return σ) (disposition : BoundaryDisposition)
    (outcome : List Emission → List MailboxSend → ℕ → TaskOutcome) (t : Task σ)
    (shared : SubscriptionRuntime) :
    Except TaskError (Option TaskOutcome) × Task σ × SubscriptionRuntime :=
  match t.commitBoundaryWithDisposition r disposition shared with
  | (.error error, t, shared) => (.error error, t, shared)
  | (.ok .retried, t, shared) => (.ok none, t, shared)
  | (.ok .committed, t, shared) =>
    (.ok (some (outcome t.committedEffects t.committedMailboxSends t.retries)), t.takeCommitted,
      shared)

/-- `Task::outcome_from_host_response`. -/
def outcomeFromHostResponse (r : Return σ) (t : Task σ) (shared : SubscriptionRuntime) :
    VmHostResponse → Except TaskError (Option TaskOutcome) × Task σ × SubscriptionRuntime
  | .continue => (.ok none, t, shared)
  | .commit =>
    match t.commitBoundaryWithDisposition r .continue shared with
    | (.error error, t, shared) => (.error error, t, shared)
    | (.ok _, t, shared) => (.ok none, t, shared)
  | .suspend kind => t.endAtBoundary r .continue (.suspended kind) shared
  | .spawn request => t.endAtBoundary r .continue (.suspended (.spawn request)) shared
  | .complete value => t.endAtBoundary r .finish (.complete value) shared
  | .abort error =>
    let t := { t with pendingEffects := [], pendingMailboxSends := [] }
    let (t, shared) := t.discardPendingSubscriptions shared
    let t := { t with tx := none }
    (.ok (some (.aborted error t.committedEffects t.committedMailboxSends t.retries)),
      t.takeCommitted, shared)
  | .rollbackRetry =>
    match t.retryFromBoundary r shared with
    | (.error error, t, shared) => (.error error, t, shared)
    | (.ok (), t, shared) => (.ok none, t, shared)

/-- The machine returns: the rest of one turn of the loop of `Task::run`. -/
def respond (r : Return σ) (t : Task σ) (shared : SubscriptionRuntime) :
    Except TaskError (Option TaskOutcome) × Task σ × SubscriptionRuntime :=
  match t.tx with
  | none => (.error .missingTransaction, t, shared)
  | some _ =>
    let t := { t with vm := r.vm }
    match r.response with
    | .error error => (.error (.runtime error), t, shared)
    | .ok response => t.outcomeFromHostResponse r shared response

/-- **A boundary ends the call with an error**: the subscriptions of the segment cannot be handed
over, or the kernel refuses its writes and it is not run again. -/
def boundaryFails (r : Return σ) (t : Task σ) (shared : SubscriptionRuntime) (tx : TaskTransaction) :
    Bool :=
  match tx.isReadOnly, r.committed with
  | false, .error error => tx.hasTaggedBufferApply || !isRetryableConflict error ||
    decide (t.limits.maxRetries ≤ t.retries)
  | _, _ => !(shared.applyBoundary r.published r.order t.pendingSubscriptions).1.1.isOk

/-- **A turn ends the call with an error**, as its input and the task before it say. -/
def fails (r : Return σ) (t : Task σ) (shared : SubscriptionRuntime) : Bool :=
  match t.tx, r.response with
  | none, _ => true
  | _, .error _ => true
  | _, .ok .rollbackRetry => decide (t.limits.maxRetries ≤ t.retries)
  | some tx, .ok _ => r.asksBoundary && t.boundaryFails r shared tx

/-! ## What a boundary can do -/

variable {r : Return σ} {t : Task σ} {shared : SubscriptionRuntime}

/-- The task after a retry. -/
def retried (r : Return σ) (t : Task σ) : Task σ :=
  { t with
    pendingEffects := []
    pendingMailboxSends := []
    pendingSubscriptions := []
    vm := t.retryState
    tx := some (.begin r.next)
    retries := t.retries + 1
    history := { t.history with attempt := [], allocated := [] } }

/-- What the others see of it: the subscriptions of the attempt are released. -/
def released (t : Task σ) (shared : SubscriptionRuntime) : SubscriptionRuntime :=
  { shared with mailboxes := shared.mailboxes.discardPendingSubscriptions t.pendingSubscriptions }

theorem retryFromBoundary_eq (r : Return σ) (t : Task σ) (shared : SubscriptionRuntime) :
    t.retryFromBoundary r shared =
      if t.limits.maxRetries ≤ t.retries then
        (.error (.conflictRetriesExceeded t.retries), t, shared)
      else (.ok (), t.retried r, t.released shared) := rfl

/-- **Every way a boundary can end**, for a task whose transaction is taken and wrote or did not. -/
inductive Boundary (r : Return σ) (disposition : BoundaryDisposition) (wrote : Bool) (t : Task σ)
    (shared : SubscriptionRuntime) :
    Except TaskError BoundaryResult × Task σ × SubscriptionRuntime → Prop
  /-- A segment that wrote nothing; its subscriptions could not be handed over. -/
  | refused (hwrote : wrote = false) (error : RuntimeError) (left : List SubscriptionOperation)
      (shared' : SubscriptionRuntime) :
      Boundary r disposition wrote t shared
        (.error (.runtime error), { t with pendingSubscriptions := left }, shared')
  | committed (left : List SubscriptionOperation) (shared' : SubscriptionRuntime) :
      Boundary r disposition wrote t shared (.ok .committed,
        { t.markCommitted with pendingSubscriptions := left }.finishSuccessfulBoundary r disposition,
        shared')
  /-- The transaction was committed and then the subscriptions could not be handed over. -/
  | handOverFailed (hwrote : wrote = true) (hcommitted : r.committed = .ok ()) (error : RuntimeError)
      (left : List SubscriptionOperation) (shared' : SubscriptionRuntime) :
      Boundary r disposition wrote t shared
        (.error (.runtime error), { t.markCommitted with pendingSubscriptions := left }, shared')
  | retried : Boundary r disposition wrote t shared (.ok .retried, t.retried r, t.released shared)
  | exhausted (hcommitted : r.committed ≠ .ok ()) : Boundary r disposition wrote t shared
      (.error (.conflictRetriesExceeded t.retries), t, shared)
  | failed (hcommitted : r.committed ≠ .ok ()) (error : KernelError) :
      Boundary r disposition wrote t shared (.error (.runtime (.kernel error)),
      { t with
        pendingSubscriptions := []
        tx := some (.begin r.next)
        history := { t.history with allocated := [] } }, t.released shared)

/-- What handing over the subscriptions does to a task. -/
theorem applyBoundary_eq (r : Return σ) (t : Task σ) (shared : SubscriptionRuntime) :
    ∃ result left shared', t.applyBoundary r shared =
      (result, { t with pendingSubscriptions := left }, shared') := by
  unfold applyBoundary
  split
  next result taken shared' _ =>
    cases taken with
    | true => exact ⟨result, [], shared', rfl⟩
    | false => exact ⟨result, t.pendingSubscriptions, shared', rfl⟩

theorem commitBoundary_spec (r : Return σ) (t : Task σ) {tx : TaskTransaction}
    (htx : t.tx = some tx) (disposition : BoundaryDisposition) (shared : SubscriptionRuntime) :
    Boundary r disposition (!tx.isReadOnly) { t with tx := none } shared
      (t.commitBoundaryWithDisposition r disposition shared) := by
  unfold commitBoundaryWithDisposition
  rw [htx]
  dsimp only
  split
  · next hread =>
    rw [hread]
    obtain ⟨result, left, shared', heq⟩ := applyBoundary_eq r { t with tx := none } shared
    rw [heq]
    cases result with
    | error error => exact .refused rfl error left shared'
    | ok delivered => exact .committed left shared'
  rename_i hread
  rw [Bool.not_eq_true] at hread
  rw [hread]
  cases hcommitted : r.committed with
  | ok _ =>
    obtain ⟨result, left, shared', heq⟩ := applyBoundary_eq r
      (Task.markCommitted { t with tx := none }) shared
    dsimp only
    rw [heq]
    cases result with
    | error error => exact .handOverFailed rfl hcommitted error left shared'
    | ok delivered => exact .committed left shared'
  | error error =>
    have hfailed : r.committed ≠ .ok () := by
      rw [hcommitted]
      exact nofun
    dsimp only
    split
    · rw [retryFromBoundary_eq]
      split
      · next hsplit =>
        split at hsplit
        · obtain ⟨rfl, rfl, rfl⟩ := by simpa using hsplit
          exact .exhausted hfailed
        · exact nomatch hsplit
      rename_i hsplit
      split at hsplit
      · exact nomatch hsplit
      obtain ⟨rfl, rfl⟩ := by simpa using hsplit
      exact .retried
    · exact .failed hfailed error

/-- **Every way a turn of `Task::run` can end.** -/
inductive Responds (r : Return σ) (t : Task σ) (shared : SubscriptionRuntime) :
    Except TaskError (Option TaskOutcome) × Task σ × SubscriptionRuntime → Prop
  | missing (htx : t.tx = none) : Responds r t shared (.error .missingTransaction, t, shared)
  | raised (hasks : r.asksBoundary = false) (error : RuntimeError) :
      Responds r t shared (.error (.runtime error), { t with vm := r.vm }, shared)
  | continued : Responds r t shared (.ok none, { t with vm := r.vm }, shared)
  /-- The program goes on after a boundary, or the segment is run again. -/
  | passed {result : BoundaryResult} {disposition : BoundaryDisposition} {wrote : Bool} {t' : Task σ}
      {shared' : SubscriptionRuntime} (hgoes : result = .committed → disposition = .continue)
      (h : Boundary r disposition wrote { t with vm := r.vm, tx := none } shared
        (.ok result, t', shared')) : Responds r t shared (.ok none, t', shared')
  | ended {outcome : TaskOutcome} {disposition : BoundaryDisposition} {wrote : Bool} {t' : Task σ}
      {shared' : SubscriptionRuntime} (heffects : outcome.effects = t'.committedEffects)
      (hsends : outcome.mailboxSends = t'.committedMailboxSends)
      (h : Boundary r disposition wrote { t with vm := r.vm, tx := none } shared
        (.ok .committed, t', shared')) :
      Responds r t shared (.ok (some outcome), t'.takeCommitted, shared')
  | failed {error : TaskError} {disposition : BoundaryDisposition} {tx : TaskTransaction}
      {t' : Task σ} {shared' : SubscriptionRuntime} (hasks : r.asksBoundary = true)
      (htx : t.tx = some tx)
      (h : Boundary r disposition (!tx.isReadOnly) { t with vm := r.vm, tx := none } shared
        (.error error, t', shared')) : Responds r t shared (.error error, t', shared')
  | aborted (error : Value) : Responds r t shared
      (.ok (some (.aborted error t.committedEffects t.committedMailboxSends t.retries)),
        { t with
          vm := r.vm
          tx := none
          pendingEffects := []
          pendingMailboxSends := []
          pendingSubscriptions := []
          committedEffects := []
          committedMailboxSends := []
          history := { t.history with allocated := [] } }, t.released shared)
  | rolledBack : Responds r t shared
      (.ok none, { t with vm := r.vm }.retried r, t.released shared)
  | exhausted (hasks : r.asksBoundary = false) : Responds r t shared
      (.error (.conflictRetriesExceeded t.retries), { t with vm := r.vm }, shared)

theorem endAtBoundary_spec {tx : TaskTransaction} (htx : t.tx = some tx)
    (hasks : r.asksBoundary = true) (disposition : BoundaryDisposition)
    {outcome : List Emission → List MailboxSend → ℕ → TaskOutcome}
    (heffects : ∀ effects sends n, (outcome effects sends n).effects = effects)
    (hsends : ∀ effects sends n, (outcome effects sends n).mailboxSends = sends) :
    Responds r t shared ({ t with vm := r.vm }.endAtBoundary r disposition outcome shared) := by
  have hspec : Boundary r disposition (!tx.isReadOnly) { t with vm := r.vm, tx := none } shared
      ({ t with vm := r.vm }.commitBoundaryWithDisposition r disposition shared) :=
    commitBoundary_spec r { t with vm := r.vm } htx disposition shared
  unfold endAtBoundary
  split
  · next heq =>
    rw [heq] at hspec
    exact .failed hasks htx hspec
  · next heq =>
    rw [heq] at hspec
    exact .passed (fun h => BoundaryResult.noConfusion h) hspec
  · next heq =>
    rw [heq] at hspec
    exact .ended (heffects _ _ _) (hsends _ _ _) hspec

theorem respond_spec (r : Return σ) (t : Task σ) (shared : SubscriptionRuntime) :
    Responds r t shared (t.respond r shared) := by
  unfold respond
  split
  · next htx => exact .missing htx
  rename_i tx htx
  dsimp only
  rcases hresponse : r.response with error | response
  · exact .raised (by rw [Return.asksBoundary, hresponse]) error
  cases response with
  | «continue» => exact .continued
  | commit =>
    have hasks : r.asksBoundary = true := by rw [Return.asksBoundary, hresponse]
    have hspec : Boundary r .continue (!tx.isReadOnly) { t with vm := r.vm, tx := none } shared
        ({ t with vm := r.vm }.commitBoundaryWithDisposition r .continue shared) :=
      commitBoundary_spec r { t with vm := r.vm } htx .continue shared
    dsimp only [outcomeFromHostResponse]
    split
    · next heq =>
      rw [heq] at hspec
      exact .failed hasks htx hspec
    · next heq =>
      rw [heq] at hspec
      exact .passed (fun _ => rfl) hspec
  | suspend kind =>
    exact endAtBoundary_spec htx (by rw [Return.asksBoundary, hresponse]) .continue
      (fun _ _ _ => rfl) fun _ _ _ => rfl
  | spawn request =>
    exact endAtBoundary_spec htx (by rw [Return.asksBoundary, hresponse]) .continue
      (fun _ _ _ => rfl) fun _ _ _ => rfl
  | complete value =>
    exact endAtBoundary_spec htx (by rw [Return.asksBoundary, hresponse]) .finish
      (fun _ _ _ => rfl) fun _ _ _ => rfl
  | abort error => exact .aborted error
  | rollbackRetry =>
    dsimp only [outcomeFromHostResponse]
    rw [retryFromBoundary_eq]
    split
    · next hsplit =>
      split at hsplit
      · obtain ⟨rfl, rfl, rfl⟩ := by simpa using hsplit
        exact .exhausted (by rw [Return.asksBoundary, hresponse])
      · exact nomatch hsplit
    rename_i hsplit
    split at hsplit
    · exact nomatch hsplit
    obtain ⟨rfl, rfl⟩ := by simpa using hsplit
    exact .rolledBack

theorem commitBoundary_isOk (r : Return σ) (t : Task σ) {tx : TaskTransaction} (htx : t.tx = some tx)
    (disposition : BoundaryDisposition) (shared : SubscriptionRuntime) :
    (t.commitBoundaryWithDisposition r disposition shared).1.isOk = !t.boundaryFails r shared tx := by
  unfold commitBoundaryWithDisposition boundaryFails
  rw [htx]
  dsimp only [applyBoundary, markCommitted]
  rcases shared.applyBoundary r.published r.order t.pendingSubscriptions with ⟨⟨given, taken⟩, shared'⟩
  cases tx.isReadOnly with
  | true => cases given <;> rfl
  | false =>
    simp only [Bool.false_eq_true, if_false]
    rcases r.committed with error | _
    · dsimp only
      rw [retryFromBoundary_eq]
      cases tx.hasTaggedBufferApply with
      | true => rfl
      | false =>
        cases isRetryableConflict error with
        | false => rfl
        | true => by_cases hspent : t.limits.maxRetries ≤ t.retries <;> simp [hspent] <;> rfl
    · cases given <;> rfl

theorem endAtBoundary_isOk (r : Return σ) (t : Task σ) {tx : TaskTransaction} (htx : t.tx = some tx)
    (disposition : BoundaryDisposition) (outcome : List Emission → List MailboxSend → ℕ → TaskOutcome)
    (shared : SubscriptionRuntime) :
    (t.endAtBoundary r disposition outcome shared).1.isOk = !t.boundaryFails r shared tx := by
  rw [← commitBoundary_isOk r t htx disposition shared, endAtBoundary]
  rcases t.commitBoundaryWithDisposition r disposition shared with ⟨error | result, t', shared'⟩
  · rfl
  · cases result <;> rfl

/-- **A turn fails exactly if its input and the task before it say so.** -/
theorem respond_isOk (r : Return σ) (t : Task σ) (shared : SubscriptionRuntime) :
    (t.respond r shared).1.isOk = !t.fails r shared := by
  unfold respond fails
  rcases htx : t.tx with _ | tx
  · rfl
  rcases hresponse : r.response with error | response
  · rfl
  have hended : ∀ disposition outcome,
      (({ t with vm := r.vm, tx := some tx } : Task σ).endAtBoundary r disposition outcome
        shared).1.isOk =
        !t.boundaryFails r shared tx := fun disposition outcome =>
    endAtBoundary_isOk r { t with vm := r.vm, tx := some tx } rfl disposition outcome shared
  cases response with
  | «continue» => simp [outcomeFromHostResponse, Return.asksBoundary, hresponse, Except.isOk,
    Except.toBool]
  | commit =>
    dsimp only [outcomeFromHostResponse]
    rw [Return.asksBoundary, hresponse]
    refine Eq.trans ?_ (commitBoundary_isOk r
      { t with vm := r.vm, tx := some tx } rfl .continue shared)
    split
    · next heq => rw [heq]; rfl
    · next heq => rw [heq]; rfl
  | suspend kind =>
    rw [Return.asksBoundary, hresponse]
    exact hended _ _
  | spawn request =>
    rw [Return.asksBoundary, hresponse]
    exact hended _ _
  | complete value =>
    rw [Return.asksBoundary, hresponse]
    exact hended _ _
  | abort error => simp [outcomeFromHostResponse, Return.asksBoundary, hresponse, Except.isOk,
    Except.toBool]
  | rollbackRetry =>
    dsimp only [outcomeFromHostResponse]
    rw [retryFromBoundary_eq]
    by_cases hspent : t.limits.maxRetries ≤ t.retries <;> simp [hspent] <;> rfl

end Task

end Mica
