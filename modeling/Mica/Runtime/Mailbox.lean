import Mica.Runtime.Authority

/-!
# Runtime/Mailbox — mailboxes and the capabilities for them

A mailbox is a queue that is reached through capabilities: one to send, one to receive, and one for
each subscription that delivers into it.  Closing a mailbox revokes them all.
-/

open SortedList

namespace Mica

inductive RuntimeError where
  | invalidMailboxCapability (operation : String) (capability : Value)
  | invalidBuiltinCall (name message : String)
  | permissionDenied (operation : String) (target : Value)
  | kernel (error : KernelError)
  /-- An error that the machine itself raises. -/
  | machine (message : String)
  deriving DecidableEq

/-- `Value::as_capability`. -/
def Value.asCapability (v : Value) : Option CapabilityId :=
  match v.raw with
  | .capability c => some c
  | _ => none

/-! ## Messages -/

/-- What a message with changed rows is about. -/
inductive ChangeSubject where
  | snapshot | facts | relation
  deriving DecidableEq

inductive MarkerKind where
  | resynchronize | revoked
  deriving DecidableEq

inductive CatalogueEntry where
  | relationCreated (relation : RelationId) (name : Symbol)
  | ruleInstalled (rule : Identity) (relation : RelationId)
  | ruleDisabled (rule : Identity) (relation : Option RelationId)
  deriving DecidableEq

/-- What a mailbox holds: a value that was sent, or the message of a subscription. -/
inductive MailboxMessage where
  | value (value : Value)
  | changes (subscription : CapabilityId) (cursor : ℕ) (subject : ChangeSubject)
      (assertions retractions : List Tuple)
  | catalogueSnapshot (subscription : CapabilityId) (cursor : ℕ) (entries : List CatalogueEntry)
  | catalogueChanges (subscription : CapabilityId) (cursor : ℕ) (entries : List CatalogueEntry)
  | marker (subscription : CapabilityId) (cursor : ℕ) (kind : MarkerKind)
  deriving DecidableEq

/-- The version that a message of a subscription is about. -/
def MailboxMessage.cursor : MailboxMessage → ℕ
  | value _ => 0
  | changes _ cursor _ _ _ => cursor
  | catalogueSnapshot _ cursor _ => cursor
  | catalogueChanges _ cursor _ => cursor
  | marker _ cursor _ => cursor

structure MailboxEntry where
  message : MailboxMessage
  subscription : Option CapabilityId
  deriving DecidableEq

/-- Whom a message is from, and what it is about. -/
def MailboxEntry.address (entry : MailboxEntry) : Option CapabilityId × ℕ :=
  (entry.subscription, entry.message.cursor)

structure MailboxSend where
  sender : Value
  value : Value
  deriving DecidableEq

/-! ## The store -/

inductive MailboxCapKind where
  | receiver | sender
  deriving DecidableEq

inductive RuntimeCap where
  | mailbox (mailbox : ℕ) (kind : MailboxCapKind)
  | subscription (mailbox : ℕ)
  deriving DecidableEq

/-- The mailbox that a capability is for. -/
def RuntimeCap.target : RuntimeCap → ℕ
  | .mailbox target _ => target
  | .subscription target => target

/-- The mailboxes, with a history of what subscriptions have put in their queues. -/
structure MailboxStore where
  nextMailboxId : ℕ
  nextCapId : ℕ
  caps : SortedMap CapabilityId RuntimeCap
  queues : SortedMap ℕ (List MailboxEntry)
  subscriptionDeliveries : SortedSet ℕ
  delivered : List MailboxEntry

namespace MailboxStore

/-- `MAILBOX_CAP_BASE`. -/
def mailboxCapBase : ℕ := 0x00f0000000000000

/-- `MailboxStore::new`. -/
def new : MailboxStore := ⟨1, mailboxCapBase, SortedMap.empty, SortedMap.empty, SortedSet.empty, []⟩

/-- The loop of `allocate_cap` and `allocate_subscription`: the first number from the next one on that
no capability has.  It passes each capability at most once. -/
def allocateFrom (caps : SortedMap CapabilityId RuntimeCap) : ℕ → ℕ → Option CapabilityId × ℕ
  | 0, raw => (none, raw)
  | n + 1, raw =>
    match CapabilityId.ofCounter raw with
    | none => (none, raw + 1)
    | some id => if id ∈ caps.keys then allocateFrom caps n (raw + 1) else (some id, raw + 1)

/-- Enter a capability under a new number. -/
def allocate (s : MailboxStore) (cap : RuntimeCap) : Option CapabilityId × MailboxStore :=
  let (id, nextCapId) := allocateFrom s.caps (s.caps.list.length + 1) s.nextCapId
  match id with
  | none => (none, { s with nextCapId })
  | some id => (some id, { s with nextCapId, caps := s.caps.insert id cap })

/-- `MailboxStore::mailbox_for`. -/
def mailboxFor (s : MailboxStore) (value : Value) (expected : MailboxCapKind) (operation : String) :
    Except RuntimeError ℕ :=
  match value.asCapability.bind s.caps.get? with
  | some (.mailbox mailbox kind) =>
    if kind = expected then .ok mailbox else .error (.invalidMailboxCapability operation value)
  | _ => .error (.invalidMailboxCapability operation value)

/-- `MailboxStore::mailbox_for_sender`. -/
def mailboxForSender (s : MailboxStore) (sender : Value) : Except RuntimeError ℕ :=
  s.mailboxFor sender .sender "send"

/-- `MailboxStore::mailbox_for_receiver`. -/
def mailboxForReceiver (s : MailboxStore) (receiver : Value) : Except RuntimeError ℕ :=
  s.mailboxFor receiver .receiver "recv"

/-- `MailboxStore::subscription_mailbox`. -/
def subscriptionMailbox (s : MailboxStore) (subscription : CapabilityId) : Except RuntimeError ℕ :=
  match s.caps.get? subscription with
  | some (.subscription mailbox) => .ok mailbox
  | _ => .error (.invalidMailboxCapability "subscription" (.capability subscription))

def capsExhausted (name what : String) : RuntimeError :=
  .invalidBuiltinCall name (what ++ " capability id space exhausted")

/-- `MailboxStore::create_mailbox`: the capabilities to receive and to send. -/
def createMailbox (s : MailboxStore) :
    Except RuntimeError (CapabilityId × CapabilityId) × MailboxStore :=
  let mailbox := s.nextMailboxId
  let s := { s with
    nextMailboxId := mailbox + 1
    queues := s.queues.insert mailbox ((s.queues.get? mailbox).getD []) }
  match s.allocate (.mailbox mailbox .receiver) with
  | (none, s) => (.error (capsExhausted "mailbox" "mailbox"), s)
  | (some receiver, s) =>
    match s.allocate (.mailbox mailbox .sender) with
    | (none, s) => (.error (capsExhausted "mailbox" "mailbox"), s)
    | (some sender, s) => (.ok (receiver, sender), s)

/-- `MailboxStore::close_mailbox`. -/
def closeMailbox (s : MailboxStore) (receiver : Value) : Except RuntimeError MailboxStore := do
  let mailbox ← s.mailboxForReceiver receiver
  return { s with
    caps := s.caps.retain fun _ cap => cap.target ≠ mailbox
    queues := s.queues.erase mailbox
    subscriptionDeliveries := s.subscriptionDeliveries.erase mailbox }

/-- `MailboxStore::allocate_subscription`. -/
def allocateSubscription (s : MailboxStore) (sender : Value) :
    Except RuntimeError CapabilityId × MailboxStore :=
  match s.mailboxForSender sender with
  | .error error => (.error error, s)
  | .ok mailbox =>
    match s.allocate (.subscription mailbox) with
    | (none, s) => (.error (capsExhausted "subscribe_changes" "subscription"), s)
    | (some id, s) => (.ok id, s)

/-- `MailboxStore::release_subscription`. -/
def releaseSubscription (s : MailboxStore) (subscription : CapabilityId) : MailboxStore :=
  match s.caps.get? subscription with
  | some (.subscription _) => { s with caps := s.caps.erase subscription }
  | _ => s

/-- `MailboxStore::drain_receiver`. -/
def drainReceiver (s : MailboxStore) (receiver : Value) :
    Except RuntimeError (List MailboxMessage × MailboxStore) := do
  let mailbox ← s.mailboxForReceiver receiver
  let queue := (s.queues.get? mailbox).getD []
  return (queue.map MailboxEntry.message, { s with queues := s.queues.insert mailbox [] })

/-- `MailboxStore::deliver`: what is sent to a closed mailbox is dropped. -/
def deliver (s : MailboxStore) (sends : List MailboxSend) : MailboxStore :=
  sends.foldl (fun s send =>
    match s.mailboxForSender send.sender with
    | .error _ => s
    | .ok mailbox => { s with
        queues := s.queues.insert mailbox
          ((s.queues.get? mailbox).getD [] ++ [⟨.value send.value, none⟩]) }) s

/-- Put the message of a subscription at the end of a queue. -/
def push (s : MailboxStore) (mailbox : ℕ) (queue : List MailboxEntry) (subscription : CapabilityId)
    (message : MailboxMessage) : MailboxStore :=
  { s with
    queues := s.queues.insert mailbox (queue ++ [⟨message, some subscription⟩])
    subscriptionDeliveries := s.subscriptionDeliveries.insert mailbox
    delivered := s.delivered ++ [⟨message, some subscription⟩] }

/-- `MailboxStore::deliver_subscription`: a full budget is replaced by the marker. -/
def deliverSubscription (s : MailboxStore) (subscription : CapabilityId)
    (message resynchronization : MailboxMessage) (queueBudget : ℕ) :
    Except RuntimeError ((ℕ × Bool) × MailboxStore) := do
  let mailbox ← s.subscriptionMailbox subscription
  let queue := (s.queues.get? mailbox).getD []
  let queued := (queue.filter fun entry => entry.subscription = some subscription).length
  if queueBudget ≤ queued then
    let queue := queue.filter fun entry => entry.subscription ≠ some subscription
    return ((mailbox, true), s.push mailbox queue subscription resynchronization)
  else
    return ((mailbox, false), s.push mailbox queue subscription message)

/-- `MailboxStore::replace_subscription_message`. -/
def replaceSubscriptionMessage (s : MailboxStore) (subscription : CapabilityId)
    (message : MailboxMessage) : Except RuntimeError (ℕ × MailboxStore) := do
  let mailbox ← s.subscriptionMailbox subscription
  let queue := ((s.queues.get? mailbox).getD []).filter fun entry =>
    entry.subscription ≠ some subscription
  return (mailbox, s.push mailbox queue subscription message)

/-! ## Capabilities come and go -/

variable {s s' : MailboxStore} {c : CapabilityId}

/-- The number that the loop finds is free, and below the next one. -/
theorem allocateFrom_spec {caps : SortedMap CapabilityId RuntimeCap} {id : CapabilityId} :
    ∀ {n raw : ℕ}, (allocateFrom caps n raw).1 = some id →
      id ∉ caps.keys ∧ raw ≤ id.raw.toNat ∧ id.raw.toNat < (allocateFrom caps n raw).2
  | 0, _, h => nomatch h
  | n + 1, raw, h => by
    unfold allocateFrom at h ⊢
    split at h
    · cases h
    rename_i found hfound
    have hraw := CapabilityId.ofCounter_eq_some hfound
    split at h
    · next hused =>
      obtain ⟨hfree, hle, hlt⟩ := allocateFrom_spec h
      rw [if_pos hused]
      exact ⟨hfree, (Nat.le_succ raw).trans hle, hlt⟩
    · next hfree =>
      rw [if_neg hfree]
      obtain rfl := Option.some.inj h
      exact ⟨hfree, hraw.ge, by dsimp only; omega⟩

theorem le_allocateFrom (caps : SortedMap CapabilityId RuntimeCap) :
    ∀ n raw, raw ≤ (allocateFrom caps n raw).2
  | 0, _ => le_rfl
  | n + 1, raw => by
    unfold allocateFrom
    split
    · exact Nat.le_succ raw
    · split
      · exact (Nat.le_succ raw).trans (le_allocateFrom caps n (raw + 1))
      · exact Nat.le_succ raw

/-- **A new capability gets a number that none had before.** -/
theorem allocate_cases (s : MailboxStore) (cap : RuntimeCap) :
    (∃ next, s.nextCapId ≤ next ∧ s.allocate cap = (none, { s with nextCapId := next })) ∨
    ∃ id next, s.caps.get? id = none ∧ s.nextCapId ≤ id.raw.toNat ∧ id.raw.toNat < next ∧
      s.allocate cap = (some id, { s with nextCapId := next, caps := s.caps.insert id cap }) := by
  have hle := le_allocateFrom s.caps (s.caps.list.length + 1) s.nextCapId
  unfold allocate
  cases hfound : allocateFrom s.caps (s.caps.list.length + 1) s.nextCapId with
  | mk id next =>
    rw [hfound] at hle
    cases id with
    | none => exact Or.inl ⟨next, hle, rfl⟩
    | some id =>
      obtain ⟨hfree, hge, hlt⟩ := allocateFrom_spec (congrArg Prod.fst hfound)
      rw [hfound] at hlt
      refine Or.inr ⟨id, next, ?_, hge, hlt, rfl⟩
      rwa [SortedMap.mem_keys, Bool.not_eq_true, Option.isSome_eq_false_iff,
        Option.isNone_iff_eq_none] at hfree

theorem subscriptionMailbox_eq_ok {mailbox : ℕ} :
    s.subscriptionMailbox c = .ok mailbox ↔ s.caps.get? c = some (.subscription mailbox) := by
  unfold subscriptionMailbox
  split
  · next found hfound => rw [hfound]; simp
  · next hother =>
    refine iff_of_false nofun fun h => hother mailbox h

/-- Messages leave the capabilities alone, and each goes into a queue once. -/
theorem deliverSubscription_frame {message marker : MailboxMessage} {budget : ℕ}
    {r : (ℕ × Bool) × MailboxStore} (h : s.deliverSubscription c message marker budget = .ok r) :
    r.2.caps = s.caps ∧ r.2.nextCapId = s.nextCapId ∧ ∃ sent, (sent = message ∨ sent = marker) ∧
      r.2.delivered = s.delivered ++ [⟨sent, some c⟩] := by
  unfold deliverSubscription at h
  rcases hmailbox : s.subscriptionMailbox c with _ | mailbox
  · rw [hmailbox] at h
    cases h
  rw [hmailbox] at h
  simp only [bind, Except.bind] at h
  split at h
  · obtain rfl := Except.ok.inj h
    exact ⟨rfl, rfl, marker, .inr rfl, rfl⟩
  · obtain rfl := Except.ok.inj h
    exact ⟨rfl, rfl, message, .inl rfl, rfl⟩

theorem replaceSubscriptionMessage_frame {message : MailboxMessage} {r : ℕ × MailboxStore}
    (h : s.replaceSubscriptionMessage c message = .ok r) :
    r.2.caps = s.caps ∧ r.2.nextCapId = s.nextCapId ∧
      r.2.delivered = s.delivered ++ [⟨message, some c⟩] := by
  unfold replaceSubscriptionMessage at h
  rcases hmailbox : s.subscriptionMailbox c with _ | mailbox
  · rw [hmailbox] at h
    cases h
  rw [hmailbox] at h
  obtain rfl := Except.ok.inj h
  exact ⟨rfl, rfl, rfl⟩

/-- **A message can be delivered while the subscription's capability is there.** -/
theorem exists_deliverSubscription {mailbox : ℕ}
    (h : s.caps.get? c = some (.subscription mailbox)) (message marker : MailboxMessage)
    (budget : ℕ) : ∃ r, s.deliverSubscription c message marker budget = .ok r := by
  unfold deliverSubscription
  rw [subscriptionMailbox_eq_ok.mpr h]
  simp only [bind, Except.bind]
  split
  · exact ⟨_, rfl⟩
  · exact ⟨_, rfl⟩

theorem exists_replaceSubscriptionMessage {mailbox : ℕ}
    (h : s.caps.get? c = some (.subscription mailbox)) (message : MailboxMessage) :
    ∃ r, s.replaceSubscriptionMessage c message = .ok r := by
  unfold replaceSubscriptionMessage
  rw [subscriptionMailbox_eq_ok.mpr h]
  exact ⟨_, rfl⟩

theorem get?_releaseSubscription_of_ne {c' : CapabilityId} (h : c' ≠ c) :
    (s.releaseSubscription c).caps.get? c' = s.caps.get? c' := by
  unfold releaseSubscription
  split
  · exact (SortedMap.get?_erase c').trans (if_neg h)
  · rfl

/-- **A released subscription has no capability.** -/
theorem get?_releaseSubscription_self (mailbox : ℕ) :
    (s.releaseSubscription c).caps.get? c ≠ some (.subscription mailbox) := by
  unfold releaseSubscription
  split
  · intro h
    rw [SortedMap.get?_erase, if_pos rfl] at h
    cases h
  · next hother => exact hother mailbox

end MailboxStore

end Mica
