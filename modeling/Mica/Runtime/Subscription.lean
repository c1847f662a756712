import Mica.Kernel.Snapshot
import Mica.Runtime.Mailbox

/-!
# Runtime/Subscription — changes of relations, delivered to mailboxes

A subscription asks for the changes of a relation, or of the catalogue.  At every boundary the store
goes through the commits since the last one, and hands each to the subscriptions that it may concern;
then it applies the registrations and cancellations that came with the boundary.  An error leaves the
loops at once and what they have done by then stays done.
-/

open SortedList

namespace Mica

structure RuntimeContext where
  principal : Option Identity
  actor : Option Identity
  endpoint : Identity
  deriving DecidableEq

inductive SubscriptionSubject where
  | catalogue
  | facts (relation : RelationId) (bindings : Bindings)
  | relation (relation : RelationId) (bindings : Bindings)
  deriving DecidableEq

/-- `SubscriptionSubject::relation`. -/
def SubscriptionSubject.relation? : SubscriptionSubject → Option RelationId
  | .catalogue => none
  | .facts id _ => some id
  | .relation id _ => some id

/-- The subject is the stored facts of a relation. -/
def SubscriptionSubject.isFacts : SubscriptionSubject → Bool
  | .facts _ _ => true
  | _ => false

/-- The subject is a relation as it is visible. -/
def SubscriptionSubject.isRelation : SubscriptionSubject → Bool
  | .relation _ _ => true
  | _ => false

inductive SubscriptionInitialDelivery where
  | changesOnly | snapshotThenChanges
  deriving DecidableEq

structure SubscriptionRequest where
  sender : Value
  subject : SubscriptionSubject
  initialDelivery : SubscriptionInitialDelivery
  cursor : Option ℕ
  queueBudget : ℕ
  deriving DecidableEq

inductive SubscriptionOperation where
  | register (subscription : CapabilityId) (request : SubscriptionRequest)
      (runtimeContext : RuntimeContext) (rootAuthority : Bool)
  | cancel (subscription : CapabilityId)
  deriving DecidableEq

/-- `BuiltinContext::subscribe_changes`: the registration that the next boundary is to make. -/
def subscribeChanges (authority : AuthorityContext) (context : RuntimeContext)
    (request : SubscriptionRequest) (mailboxes : MailboxStore) :
    Except RuntimeError SubscriptionOperation × MailboxStore :=
  if !authority.root && context.actor.isNone && context.principal.isNone then
    (.error (.invalidBuiltinCall "subscribe_changes"
      "non-root subscriptions require a refreshable actor or principal context"), mailboxes)
  else
    match request.subject.relation?.filter fun relation => !authority.canReadRelation relation with
    | some relation => (.error (.permissionDenied "subscribe" (.identity relation)), mailboxes)
    | none =>
      if request.queueBudget = 0 then
        (.error (.invalidBuiltinCall "subscribe_changes" "queue budget must be positive"), mailboxes)
      else if request.initialDelivery = .snapshotThenChanges ∧ request.cursor.isSome then
        (.error (.invalidBuiltinCall "subscribe_changes"
          "snapshot delivery cannot be combined with a resume cursor"), mailboxes)
      else
        match mailboxes.allocateSubscription request.sender with
        | (.error error, mailboxes) => (.error error, mailboxes)
        | (.ok subscription, mailboxes) =>
          (.ok (.register subscription request context authority.root), mailboxes)

/-- `BuiltinContext::cancel_subscription`. -/
def cancelSubscription (mailboxes : MailboxStore) (subscription : Value) :
    Except RuntimeError SubscriptionOperation :=
  match subscription.asCapability with
  | none => .error (.invalidMailboxCapability "subscription" subscription)
  | some capability => do
    let _ ← mailboxes.subscriptionMailbox capability
    return .cancel capability

/-- The subscription that an operation is about. -/
def SubscriptionOperation.capability : SubscriptionOperation → CapabilityId
  | .register subscription _ _ _ => subscription
  | .cancel subscription => subscription

/-- The subscription that an operation registers. -/
def SubscriptionOperation.registered? : SubscriptionOperation → Option CapabilityId
  | .register subscription _ _ _ => some subscription
  | .cancel _ => none

/-- The subscriptions that operations register. -/
def registered (operations : List SubscriptionOperation) : List CapabilityId :=
  operations.filterMap SubscriptionOperation.registered?

theorem registered_append (operations more : List SubscriptionOperation) :
    registered (operations ++ more) = registered operations ++ registered more :=
  List.filterMap_append

/-- What `subscribe_changes` leaves for the boundary is a registration. -/
theorem registered?_of_subscribeChanges {authority : AuthorityContext} {context : RuntimeContext}
    {request : SubscriptionRequest} {mailboxes mailboxes' : MailboxStore}
    {operation : SubscriptionOperation}
    (h : subscribeChanges authority context request mailboxes = (.ok operation, mailboxes')) :
    operation.registered? = some operation.capability := by
  unfold subscribeChanges at h
  split at h
  · cases h
  split at h
  · cases h
  split at h
  · cases h
  split at h
  · cases h
  split at h
  · cases h
  obtain rfl := Except.ok.inj (Prod.mk.inj h).1
  rfl

/-- `MailboxRuntimeHandle::discard_pending_subscriptions`: release what was to be registered. -/
def MailboxStore.discardPendingSubscriptions (mailboxes : MailboxStore)
    (operations : List SubscriptionOperation) : MailboxStore :=
  (registered operations).foldl MailboxStore.releaseSubscription mailboxes

/-! ## What is published -/

/-- A commit with the visible changes of relations that it settled. -/
structure SettledCommit extends Commit where
  relationChanges : List FactChange
  settledRelationChangesAvailable : Bool
  deriving DecidableEq

/-- What a boundary sees of the kernel: the snapshot with its history, and the authority that the
policy in it gives. -/
structure Published where
  version : ℕ
  commits : List SettledCommit
  metadata : List RelationMetadata
  rules : List RuleDefinition
  scanFacts : RelationId → Bindings → Except KernelError (List Tuple)
  scan : RelationId → Bindings → Except KernelError (List Tuple)
  authority : RuntimeContext → Option AuthorityContext
  symbolName : Symbol → Option String

/-- A snapshot in which nothing is to be read. -/
def Published.bare : Published :=
  ⟨0, [], [], [], fun _ _ => .ok [], fun _ _ => .ok [], fun _ => none, fun _ => none⟩

/-- `CommitHistory::since`: back from the newest to the first that is not newer. -/
def Published.commitsSince (view : Published) (version : ℕ) : List SettledCommit :=
  (view.commits.reverse.takeWhile fun commit => version < commit.version).reverse

/-- The relations that `refresh_read_authority_policy_relations` finds. -/
def Published.policyRelations (view : Published) : List RelationId :=
  (view.metadata.filter fun metadata => (view.symbolName metadata.name).any fun name =>
    name ∈ ["CanRead", "GrantRead", "RoleCanRead", "Delegates"]).map RelationMetadata.id

/-- `scan_subject`. -/
def Published.scanSubject (view : Published) : SubscriptionSubject → Except RuntimeError
    (SortedSet Tuple)
  | .catalogue => .ok SortedSet.empty
  | .facts relation bindings =>
    ((view.scanFacts relation bindings).map SortedSet.ofList).mapError RuntimeError.kernel
  | .relation relation bindings =>
    ((view.scan relation bindings).map SortedSet.ofList).mapError RuntimeError.kernel

/-- `catalogue_snapshot_values`. -/
def Published.catalogueSnapshot (view : Published) : List CatalogueEntry :=
  (view.metadata.map fun metadata => .relationCreated metadata.id metadata.name) ++
    view.rules.map fun definition =>
      if definition.active then .ruleInstalled definition.id definition.rule.headRelation
      else .ruleDisabled definition.id (some definition.rule.headRelation)

/-- `catalogue_change_value`. -/
def catalogueChangeValue : CatalogChange → CatalogueEntry
  | .relationCreated metadata => .relationCreated metadata.id metadata.name
  | .ruleInstalled definition => .ruleInstalled definition.id definition.rule.headRelation
  | .ruleDisabled rule => .ruleDisabled rule none

/-- `matching_changes`: the assertions and the retractions of a subject. -/
def matchingChanges (changes : List FactChange) (relation : RelationId) (bindings : Bindings) :
    List Tuple × List Tuple :=
  let matching := changes.filter fun change =>
    change.relation = relation && Tuple.matchesBindings change.tuple bindings
  ((matching.filter fun change => change.kind = .assert).map FactChange.tuple,
    (matching.filter fun change => change.kind = .retract).map FactChange.tuple)

/-- `apply_baseline_changes`. -/
def applyBaselineChanges (baseline : SortedSet Tuple) (assertions retractions : List Tuple) :
    SortedSet Tuple :=
  assertions.foldl (fun rows tuple => rows.insert tuple)
    (retractions.foldl (fun rows tuple => rows.erase tuple) baseline)

/-! ## One subscription -/

structure ActiveSubscription where
  capability : CapabilityId
  request : SubscriptionRequest
  runtimeContext : RuntimeContext
  rootAuthority : Bool
  baseline : SortedSet Tuple
  needsResynchronization : Bool
  revoked : Bool

/-- What a delivery returns: the mailboxes that it reached or its error, the subscription and the
mailboxes as it leaves them. -/
abbrev Delivery := Except RuntimeError (List ℕ) × ActiveSubscription × MailboxStore

namespace ActiveSubscription

/-- `SubscriptionRuntimeHandle::resynchronize`. -/
def resynchronize (a : ActiveSubscription) (mailboxes : MailboxStore) (cursor : ℕ) : Delivery :=
  match mailboxes.replaceSubscriptionMessage a.capability
      (.marker a.capability cursor .resynchronize) with
  | .error error => (.error error, a, mailboxes)
  | .ok (mailbox, mailboxes) => (.ok [mailbox], { a with needsResynchronization := true }, mailboxes)

/-- `SubscriptionRuntimeHandle::enqueue`. -/
def enqueue (a : ActiveSubscription) (mailboxes : MailboxStore) (message : MailboxMessage)
    (cursor entryCount : ℕ) : Delivery :=
  if a.request.queueBudget < entryCount then a.resynchronize mailboxes cursor
  else
    match mailboxes.deliverSubscription a.capability message
        (.marker a.capability cursor .resynchronize) a.request.queueBudget with
    | .error error => (.error error, a, mailboxes)
    | .ok ((mailbox, overflow), mailboxes) =>
      (.ok [mailbox], { a with needsResynchronization := overflow }, mailboxes)

/-- Whether `refreshed_authority` lets the subscription read its relation. -/
def mayRead (view : Published) (a : ActiveSubscription) : Bool :=
  let authority := if a.rootAuthority then some AuthorityContext.rootContext
    else view.authority a.runtimeContext
  authority.any fun authority => a.request.subject.relation?.all authority.canReadRelation

/-- Send the rows that have changed, if there are any. -/
def sendChanges (a : ActiveSubscription) (mailboxes : MailboxStore) (cursor : ℕ)
    (subject : ChangeSubject) (assertions retractions : List Tuple) : Delivery :=
  if assertions = [] ∧ retractions = [] then (.ok [], a, mailboxes)
  else
    a.enqueue mailboxes (.changes a.capability cursor subject assertions retractions) cursor
      (assertions.length + retractions.length)

/-- `SubscriptionRuntimeHandle::deliver_commit`. -/
def deliverCommit (view : Published) (a : ActiveSubscription) (mailboxes : MailboxStore)
    (commit : SettledCommit) : Delivery :=
  if a.revoked then (.ok [], a, mailboxes)
  else if a.needsResynchronization then a.resynchronize mailboxes commit.version
  else if !a.mayRead view then
    match mailboxes.replaceSubscriptionMessage a.capability
        (.marker a.capability commit.version .revoked) with
    | .error error => (.error error, a, mailboxes)
    | .ok (mailbox, mailboxes) =>
      (.ok [mailbox], { a with needsResynchronization := true, revoked := true }, mailboxes)
  else
    match a.request.subject with
    | .catalogue =>
      if commit.catalogChanges = [] then (.ok [], a, mailboxes)
      else
        let entries := commit.catalogChanges.map catalogueChangeValue
        a.enqueue mailboxes (.catalogueChanges a.capability commit.version entries) commit.version
          entries.length
    | .facts relation bindings =>
      let (assertions, retractions) := matchingChanges commit.changes relation bindings
      a.sendChanges mailboxes commit.version .facts assertions retractions
    | .relation relation bindings =>
      if commit.catalogChanges = [] then
        let (assertions, retractions) := matchingChanges commit.relationChanges relation bindings
        let a := { a with baseline := applyBaselineChanges a.baseline assertions retractions }
        a.sendChanges mailboxes commit.version .relation assertions retractions
      else
        -- the catalogue has changed: compare what is there now with what the subscriber knows
        match view.scanSubject a.request.subject with
        | .error _ => a.resynchronize mailboxes commit.version
        | .ok current =>
          let assertions := (current.filter fun tuple => tuple ∉ a.baseline).list
          let retractions := (a.baseline.filter fun tuple => tuple ∉ current).list
          let a := { a with baseline := current }
          a.sendChanges mailboxes commit.version .relation assertions retractions

/-- The commits that a resumed subscription has missed, one after the other. -/
def deliverMissed (view : Published) :
    List SettledCommit → ActiveSubscription → MailboxStore → Delivery
  | [], a, mailboxes => (.ok [], a, mailboxes)
  | commit :: commits, a, mailboxes =>
    match a.deliverCommit view mailboxes commit with
    | (.error error, a, mailboxes) => (.error error, a, mailboxes)
    | (.ok delivered, a, mailboxes) =>
      match deliverMissed view commits a mailboxes with
      | (.error error, a, mailboxes) => (.error error, a, mailboxes)
      | (.ok more, a, mailboxes) => (.ok (delivered ++ more), a, mailboxes)

/-- `SubscriptionRuntimeHandle::deliver_initial`. -/
def deliverInitial (view : Published) (a : ActiveSubscription) (mailboxes : MailboxStore) :
    Delivery :=
  match a.request.cursor with
  | some cursor =>
    let commits := view.commitsSince cursor
    if view.version < cursor then a.resynchronize mailboxes view.version
    else if cursor ≠ view.version ∧
        (commits.head?.map fun commit => commit.version) ≠ some (cursor + 1) then
      a.resynchronize mailboxes view.version
    else if a.request.subject.isRelation && commits.any fun commit =>
        !commit.settledRelationChangesAvailable || commit.catalogChanges ≠ [] then
      a.resynchronize mailboxes view.version
    else
      let baseline := a.baseline
      match deliverMissed view commits a mailboxes with
      | (.error error, a, mailboxes) => (.error error, a, mailboxes)
      | (.ok delivered, a, mailboxes) => (.ok delivered, { a with baseline }, mailboxes)
  | none =>
    if a.request.initialDelivery = .changesOnly then (.ok [], a, mailboxes)
    else
      match a.request.subject with
      | .catalogue =>
        let entries := view.catalogueSnapshot
        a.enqueue mailboxes (.catalogueSnapshot a.capability view.version entries) view.version
          entries.length
      | _ =>
        let assertions := a.baseline.list
        a.enqueue mailboxes (.changes a.capability view.version .snapshot assertions []) view.version
          assertions.length

end ActiveSubscription

/-! ## The store -/

structure SubscriptionStore where
  subscriptions : SortedMap CapabilityId ActiveSubscription
  subscriptionsByRelation : SortedMap RelationId (SortedSet CapabilityId)
  catalogueSubscriptions : SortedSet CapabilityId
  readAuthorityPolicyRelations : List RelationId
  policyIndexInitialized : Bool
  dispatchedCursor : Option ℕ

namespace SubscriptionStore

/-- `SubscriptionStore::default`. -/
def empty : SubscriptionStore :=
  ⟨SortedMap.empty, SortedMap.empty, SortedSet.empty, [], false, none⟩

/-- `SubscriptionStore::index_subscription`. -/
def indexSubscription (s : SubscriptionStore) (capability : CapabilityId)
    (subject : SubscriptionSubject) : SubscriptionStore :=
  match subject.relation? with
  | none => { s with catalogueSubscriptions := s.catalogueSubscriptions.insert capability }
  | some relation =>
    let found := (s.subscriptionsByRelation.get? relation).getD SortedSet.empty
    { s with subscriptionsByRelation :=
        s.subscriptionsByRelation.insert relation (found.insert capability) }

/-- `SubscriptionStore::remove_subscription_index`. -/
def removeSubscriptionIndex (s : SubscriptionStore) (capability : CapabilityId)
    (subject : SubscriptionSubject) : SubscriptionStore :=
  match subject.relation? with
  | none => { s with catalogueSubscriptions := s.catalogueSubscriptions.erase capability }
  | some relation =>
    match s.subscriptionsByRelation.get? relation with
    | none => s
    | some found =>
      let found := found.erase capability
      { s with subscriptionsByRelation :=
          if found.list = [] then s.subscriptionsByRelation.erase relation
          else s.subscriptionsByRelation.insert relation found }

/-- The subscriptions of a relation, by the index. -/
def ofRelation (s : SubscriptionStore) (relation : RelationId) : List CapabilityId :=
  ((s.subscriptionsByRelation.get? relation).getD SortedSet.empty).list

/-- `SubscriptionStore::candidates_for_commit`. -/
def candidatesForCommit (s : SubscriptionStore) (commit : SettledCommit) : SortedSet CapabilityId :=
  let changed := commit.changes ++ commit.relationChanges
  let byRelation := changed.flatMap fun change => s.ofRelation change.relation
  let others :=
    if commit.catalogChanges ≠ [] then s.catalogueSubscriptions.list ++ s.subscriptions.keys
    else if changed.any fun change => change.relation ∈ s.readAuthorityPolicyRelations then
      (s.subscriptions.list.filter fun entry => !entry.2.rootAuthority).map Prod.fst
    else []
  SortedSet.ofList (byRelation ++ others)

/-- `SubscriptionStore::refresh_read_authority_policy_relations`. -/
def refreshPolicyRelations (s : SubscriptionStore) (view : Published) : SubscriptionStore :=
  { s with readAuthorityPolicyRelations := view.policyRelations, policyIndexInitialized := true }

end SubscriptionStore

/-- The order in which a hash table yields its keys. -/
def HashOrder := { f : List CapabilityId → List CapabilityId // ∀ l, (f l).Perm l }

structure SubscriptionRuntime where
  store : SubscriptionStore
  mailboxes : MailboxStore

namespace SubscriptionRuntime

/-- `SubscriptionRuntimeHandle::new`. -/
def new : SubscriptionRuntime := ⟨.empty, .new⟩

/-- One subscription after a delivery for a commit. -/
def record (s : SubscriptionRuntime) (a : ActiveSubscription) (mailboxes : MailboxStore) :
    SubscriptionRuntime :=
  { s with
    mailboxes
    store := { s.store with subscriptions := s.store.subscriptions.insert a.capability a } }

/-- The loop of `dispatch_through` over the candidates for a commit. -/
def deliverTo (view : Published) (multipleCatalogueCommits : Bool) (commit : SettledCommit) :
    List CapabilityId → SubscriptionRuntime → Except RuntimeError (List ℕ) × SubscriptionRuntime
  | [], s => (.ok [], s)
  | capability :: candidates, s =>
    match s.store.subscriptions.get? capability with
    | none => deliverTo view multipleCatalogueCommits commit candidates s
    | some a =>
      let delivery :=
        if multipleCatalogueCommits && a.request.subject.isRelation then
          a.resynchronize s.mailboxes commit.version
        else a.deliverCommit view s.mailboxes commit
      match delivery with
      | (.error error, a, mailboxes) => (.error error, s.record a mailboxes)
      | (.ok delivered, a, mailboxes) =>
        match deliverTo view multipleCatalogueCommits commit candidates (s.record a mailboxes) with
        | (.error error, s) => (.error error, s)
        | (.ok more, s) => (.ok (delivered ++ more), s)

/-- The loop of `dispatch_through` over the commits. -/
def deliverCommits (view : Published) (order : HashOrder) (multipleCatalogueCommits : Bool) :
    List SettledCommit → SubscriptionRuntime → Except RuntimeError (List ℕ) × SubscriptionRuntime
  | [], s => (.ok [], s)
  | commit :: commits, s =>
    let s := if commit.catalogChanges ≠ [] then { s with store := s.store.refreshPolicyRelations view }
      else s
    let candidates := order.1 (s.store.candidatesForCommit commit).list
    match deliverTo view multipleCatalogueCommits commit candidates s with
    | (.error error, s) => (.error error, s)
    | (.ok delivered, s) =>
      let s := { s with store := { s.store with dispatchedCursor := some commit.version } }
      match deliverCommits view order multipleCatalogueCommits commits s with
      | (.error error, s) => (.error error, s)
      | (.ok more, s) => (.ok (delivered ++ more), s)

/-- `SubscriptionRuntimeHandle::resynchronize_all`. -/
def resynchronizeAll (cursor : ℕ) :
    List CapabilityId → SubscriptionRuntime → Except RuntimeError (List ℕ) × SubscriptionRuntime
  | [], s => (.ok [], s)
  | capability :: capabilities, s =>
    match s.store.subscriptions.get? capability with
    | none => resynchronizeAll cursor capabilities s
    | some a =>
      match a.resynchronize s.mailboxes cursor with
      | (.error error, a, mailboxes) => (.error error, s.record a mailboxes)
      | (.ok delivered, a, mailboxes) =>
        match resynchronizeAll cursor capabilities (s.record a mailboxes) with
        | (.error error, s) => (.error error, s)
        | (.ok more, s) => (.ok (delivered ++ more), s)

/-- `SubscriptionRuntimeHandle::dispatch_through`. -/
def dispatchThrough (view : Published) (order : HashOrder) (s : SubscriptionRuntime) :
    Except RuntimeError (List ℕ) × SubscriptionRuntime :=
  let advance := fun s : SubscriptionRuntime =>
    { s with store := { s.store with dispatchedCursor := some view.version } }
  match s.store.dispatchedCursor with
  | none => (.ok [], advance s)
  | some cursor =>
    if view.version ≤ cursor then (.ok [], s)
    else
      let commits := view.commitsSince cursor
      if (commits.head?.map fun commit => commit.version) ≠ some (cursor + 1) then
        resynchronizeAll view.version (order.1 s.store.subscriptions.keys) (advance s)
      else
        let multipleCatalogueCommits :=
          1 < commits.length && commits.any fun commit => commit.catalogChanges ≠ []
        let s := if s.store.policyIndexInitialized then s
          else { s with store := s.store.refreshPolicyRelations view }
        deliverCommits view order multipleCatalogueCommits commits s

/-- The registration of a subscription at a boundary. -/
def register (view : Published) (s : SubscriptionRuntime) (a : ActiveSubscription) :
    Except RuntimeError (List ℕ) × SubscriptionRuntime :=
  let delivery :=
    if !a.mayRead view then
      match s.mailboxes.replaceSubscriptionMessage a.capability
          (.marker a.capability view.version .revoked) with
      | .error error => (.error error, a, s.mailboxes)
      | .ok (mailbox, mailboxes) => (.ok [mailbox], { a with revoked := true }, mailboxes)
    else
      let needsBaseline := !a.request.subject.isFacts || a.request.cursor.isSome ||
        a.request.initialDelivery ≠ .changesOnly
      let baseline := if needsBaseline then view.scanSubject a.request.subject
        else .ok SortedSet.empty
      match baseline with
      | .error _ => a.resynchronize s.mailboxes view.version
      | .ok baseline => { a with baseline := baseline }.deliverInitial view s.mailboxes
  match delivery with
  | (.error error, _, mailboxes) => (.error error, { s with mailboxes })
  | (.ok delivered, a, mailboxes) =>
    let s := s.record a mailboxes
    (.ok delivered, { s with
      store := s.store.indexSubscription a.capability a.request.subject })

/-- Take a subscription out of the store and release its capability. -/
def remove (s : SubscriptionRuntime) (capability : CapabilityId) : SubscriptionRuntime :=
  let store := match s.store.subscriptions.get? capability with
    | none => s.store
    | some a =>
      { s.store with subscriptions := s.store.subscriptions.erase capability }.removeSubscriptionIndex
        capability a.request.subject
  { s with store, mailboxes := s.mailboxes.releaseSubscription capability }

/-- `SubscriptionRuntimeHandle::cancel_for_endpoint`. -/
def cancelForEndpoint (s : SubscriptionRuntime) (endpoint : Identity) : SubscriptionRuntime :=
  let found := s.store.subscriptions.list.filter fun entry =>
    entry.2.runtimeContext.endpoint = endpoint
  (found.map Prod.fst).foldl remove s

/-- `SubscriptionRuntimeHandle::cancel_for_mailbox`. -/
def cancelForMailbox (s : SubscriptionRuntime) (receiver : Value) :
    Except RuntimeError SubscriptionRuntime := do
  let mailbox ← s.mailboxes.mailboxForReceiver receiver
  let found := s.store.subscriptions.list.filter fun entry =>
    match s.mailboxes.mailboxForSender entry.2.request.sender with
    | .ok current => current = mailbox
    | .error _ => false
  return (found.map Prod.fst).foldl remove s

/-- `SubscriptionRuntimeHandle::cancel_all`. -/
def cancelAll (s : SubscriptionRuntime) : SubscriptionRuntime :=
  { s with
    store := { s.store with
      subscriptions := SortedMap.empty
      subscriptionsByRelation := SortedMap.empty
      catalogueSubscriptions := SortedSet.empty }
    mailboxes := s.store.subscriptions.keys.foldl MailboxStore.releaseSubscription s.mailboxes }

/-- The loop of `apply_boundary` over the operations. -/
def applyOperations (view : Published) : List SubscriptionOperation → SubscriptionRuntime →
    Except RuntimeError (List ℕ) × SubscriptionRuntime
  | [], s => (.ok [], s)
  | .register subscription request runtimeContext rootAuthority :: operations, s =>
    match s.register view
        ⟨subscription, request, runtimeContext, rootAuthority, SortedSet.empty, false, false⟩ with
    | (.error error, s) => (.error error, s)
    | (.ok delivered, s) =>
      match applyOperations view operations s with
      | (.error error, s) => (.error error, s)
      | (.ok more, s) => (.ok (delivered ++ more), s)
  | .cancel subscription :: operations, s => applyOperations view operations (s.remove subscription)

/-- `SubscriptionRuntimeHandle::apply_boundary`: the mailboxes that were reached, and whether the
operations were taken over. -/
def applyBoundary (view : Published) (order : HashOrder) (operations : List SubscriptionOperation)
    (s : SubscriptionRuntime) : (Except RuntimeError (List ℕ) × Bool) × SubscriptionRuntime :=
  match s.dispatchThrough view order with
  | (.error error, s) => ((.error error, false), s)
  | (.ok delivered, s) =>
    match applyOperations view operations s with
    | (.error error, s) => ((.error error, true), s)
    | (.ok more, s) => ((.ok (sortDedup (delivered ++ more)), true), s)

end SubscriptionRuntime

end Mica
