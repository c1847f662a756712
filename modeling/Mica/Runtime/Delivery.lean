import Mica.Runtime.Dispatch

/-!
# Runtime/Delivery — one broken subscriber among others

Mailboxes are opened and closed, subscriptions registered and cancelled, commits published and handed
over at boundaries, in any order.

* `DeliverySystem.deliver_once` — no boundary fails, skips a commit or delivers one twice, if no
  mailbox is closed under a subscription.
* `DeliverySystem.handed_twice` — a program that closes its own mailbox makes every later boundary
  fail, and the others are handed the commit again each time.
-/

open SortedList List SortedMap Option

namespace Mica

/-- The subscriptions of a task manager, the snapshot that is published, and the operations that
callers hold for their next boundary. -/
structure DeliverySystem where
  published : Published
  runtime : SubscriptionRuntime
  pending : ℕ → List SubscriptionOperation

inductive DeliveryAction where
  | createMailbox
  /-- `MailboxStore::close_mailbox`.  A program calls it as it is; the task manager first cancels the
  subscriptions of the mailbox. -/
  | closeMailbox (receiver : Value)
  | cancelForMailbox (receiver : Value)
  | cancelForEndpoint (endpoint : Identity)
  | cancelAll
  | subscribe (caller : ℕ) (authority : AuthorityContext) (context : RuntimeContext)
      (request : SubscriptionRequest)
  | unsubscribe (caller : ℕ) (subscription : Value)
  /-- A caller gives up what it holds. -/
  | discard (caller : ℕ)
  | send (sends : List MailboxSend)
  | drain (receiver : Value)
  /-- A commit is published; the snapshot may read as it likes. -/
  | publish (commit : SettledCommit) (next : Published)
  | boundary (caller : ℕ) (order : HashOrder)

namespace DeliverySystem

/-- A system that has published a snapshot with no history. -/
def start (published : Published) : DeliverySystem :=
  ⟨{ published with commits := [] }, .new, fun _ => []⟩

/-- The mailboxes have changed. -/
def withMailboxes (s : DeliverySystem) (mailboxes : MailboxStore) : DeliverySystem :=
  { s with runtime := { s.runtime with mailboxes } }

/-- A caller holds other operations. -/
def hold (s : DeliverySystem) (caller : ℕ) (operations : List SubscriptionOperation) :
    DeliverySystem :=
  { s with pending := Function.update s.pending caller operations }

/-- The boundary of a caller, with its result. -/
def applyBoundary (s : DeliverySystem) (caller : ℕ) (order : HashOrder) :
    Except RuntimeError (List ℕ) × DeliverySystem :=
  match s.runtime.applyBoundary s.published order (s.pending caller) with
  | ((result, taken), runtime) =>
    let s := { s with runtime }
    (result, if taken then s.hold caller [] else s)

/-- One step; calls that are refused change nothing. -/
def step (s : DeliverySystem) : DeliveryAction → DeliverySystem
  | .createMailbox => s.withMailboxes s.runtime.mailboxes.createMailbox.2
  | .closeMailbox receiver =>
    match s.runtime.mailboxes.closeMailbox receiver with
    | .ok mailboxes => s.withMailboxes mailboxes
    | .error _ => s
  | .cancelForMailbox receiver =>
    match s.runtime.cancelForMailbox receiver with
    | .ok runtime => { s with runtime }
    | .error _ => s
  | .cancelForEndpoint endpoint => { s with runtime := s.runtime.cancelForEndpoint endpoint }
  | .cancelAll => { s with runtime := s.runtime.cancelAll }
  | .subscribe caller authority context request =>
    match subscribeChanges authority context request s.runtime.mailboxes with
    | (.ok operation, mailboxes) =>
      (s.withMailboxes mailboxes).hold caller (s.pending caller ++ [operation])
    | (.error _, mailboxes) => s.withMailboxes mailboxes
  | .unsubscribe caller subscription =>
    match cancelSubscription s.runtime.mailboxes subscription with
    | .ok operation => s.hold caller (s.pending caller ++ [operation])
    | .error _ => s
  | .discard caller =>
    (s.withMailboxes (s.runtime.mailboxes.discardPendingSubscriptions (s.pending caller))).hold
      caller []
  | .send sends => s.withMailboxes (s.runtime.mailboxes.deliver sends)
  | .drain receiver =>
    match s.runtime.mailboxes.drainReceiver receiver with
    | .ok (_, mailboxes) => s.withMailboxes mailboxes
    | .error _ => s
  | .publish commit next =>
    { s with published := { next with
        version := s.published.version + 1
        commits := s.published.commits ++ [{ commit with version := s.published.version + 1 }] } }
  | .boundary caller order => (s.applyBoundary caller order).2

def run (s : DeliverySystem) (as : List DeliveryAction) : DeliverySystem := as.foldl step s

/-! ## What a subscriber may rely on -/

/-- **No commit is delivered to a subscription twice**: it is sent one message for a version. -/
def Once (s : DeliverySystem) : Prop :=
  (s.runtime.mailboxes.delivered.map MailboxEntry.address).Nodup

/-- A mailbox that no subscription delivers into, and none is about to. -/
def Unused (s : DeliverySystem) (mailbox : ℕ) : Prop :=
  (∀ c, s.runtime.store.subscriptions.get? c ≠ none →
    s.runtime.mailboxes.caps.get? c ≠ some (.subscription mailbox)) ∧
  ∀ caller, ∀ c ∈ registered (s.pending caller),
    s.runtime.mailboxes.caps.get? c ≠ some (.subscription mailbox)

/-- **A mailbox is closed after its subscriptions were cancelled**, and a subscription is cancelled by
others only once it is registered. -/
def Fits (s : DeliverySystem) : DeliveryAction → Prop
  | .closeMailbox receiver => ∀ mailbox,
      s.runtime.mailboxes.mailboxForReceiver receiver = .ok mailbox → s.Unused mailbox
  | .unsubscribe caller subscription => ∀ c, subscription.asCapability = some c →
      ∀ other, other ≠ caller → c ∉ registered (s.pending other)
  | _ => True

/-- Every step of the run fits. -/
def FitsAll (s : DeliverySystem) : List DeliveryAction → Prop
  | [] => True
  | a :: as => s.Fits a ∧ (s.step a).FitsAll as

/-! ## The invariant -/

variable {s : DeliverySystem} {base : ℕ}

/-- What callers hold: operations on subscriptions that are known, whose registrations are in order,
can still be made, and belong to one caller. -/
structure Held (s : DeliverySystem) : Prop where
  known : ∀ caller, ∀ operation ∈ s.pending caller,
    operation.capability.raw.toNat < s.runtime.mailboxes.nextCapId
  ready : ∀ caller, s.runtime.Ready (s.pending caller)
  inOrder : ∀ caller, InOrder (s.pending caller)
  apart : ∀ caller other, caller ≠ other → ∀ operation ∈ s.pending caller,
    operation.capability ∉ registered (s.pending other)
  fresh : ∀ caller, ∀ entry ∈ s.runtime.mailboxes.delivered, ∀ c, entry.subscription = some c →
    c ∉ registered (s.pending caller)

/-- What was delivered so far. -/
structure HandedOver (s : DeliverySystem) : Prop where
  nodup : s.Once
  bounded : ∀ entry ∈ s.runtime.mailboxes.delivered, ∃ cursor,
    s.runtime.store.dispatchedCursor = some cursor ∧ entry.message.cursor ≤ cursor
  known : ∀ entry ∈ s.runtime.mailboxes.delivered, ∀ c, entry.subscription = some c →
    c.raw.toNat < s.runtime.mailboxes.nextCapId

structure Inv (s : DeliverySystem) (base : ℕ) : Prop where
  whole : s.runtime.Whole
  history : s.published.Consecutive base
  cursor : s.runtime.CursorIn s.published base
  numbered : s.runtime.mailboxes.Numbered
  held : s.Held
  handed : s.HandedOver

theorem Once.of_eq {t : DeliverySystem} (h : s.Once)
    (heq : t.runtime.mailboxes.delivered = s.runtime.mailboxes.delivered) : t.Once := by
  unfold Once
  rwa [heq]

/-! ### Mailboxes -/

/-- No capability is lost, and numbers are not given out again. -/
structure Keeps (m n : MailboxStore) : Prop where
  nextCapId : m.nextCapId ≤ n.nextCapId
  caps : ∀ c cap, m.caps.get? c = some cap → n.caps.get? c = some cap
  numbered : m.Numbered → n.Numbered
  delivered : n.delivered = m.delivered

variable {m : MailboxStore}

theorem Keeps.of_eq {n : MailboxStore} (h : n.caps = m.caps) (h' : n.nextCapId = m.nextCapId)
    (hdelivered : n.delivered = m.delivered) : Keeps m n := by
  refine ⟨h'.ge, fun c cap hc => by rw [h, hc], fun hnumbered => ?_, hdelivered⟩
  unfold MailboxStore.Numbered
  rwa [h, h']

theorem Keeps.trans {l n : MailboxStore} (h : Keeps l m) (h' : Keeps m n) : Keeps l n :=
  ⟨h.nextCapId.trans h'.nextCapId, fun c cap hc => h'.caps c cap (h.caps c cap hc),
    fun hnumbered => h'.numbered (h.numbered hnumbered), h'.delivered.trans h.delivered⟩

/-- Numbers are passed over. -/
theorem keeps_skip {next : ℕ} (h : m.nextCapId ≤ next) :
    Keeps m { m with nextCapId := next } :=
  ⟨h, fun _ _ hcap => hcap, fun hnumbered c cap hcap => (hnumbered c cap hcap).trans_le h, rfl⟩

/-- A capability is entered under a number that is free. -/
theorem keeps_enter {id : CapabilityId} {next : ℕ} (cap : RuntimeCap)
    (hfree : m.caps.get? id = none) (hle : m.nextCapId ≤ id.raw.toNat) (hlt : id.raw.toNat < next) :
    Keeps m { m with nextCapId := next, caps := m.caps.insert id cap } := by
  have hnext : m.nextCapId ≤ next := hle.trans hlt.le
  refine ⟨hnext, fun c found hc => ?_, fun hnumbered c found hc => ?_, rfl⟩
  · dsimp only
    rw [get?_insert_of_ne, hc]
    rintro rfl
    rw [hfree] at hc
    cases hc
  dsimp only at hc ⊢
  rw [get?_insert] at hc
  split at hc
  · next heq => exact heq ▸ hlt
  · exact (hnumbered c found hc).trans_le hnext

theorem keeps_allocate (m : MailboxStore) (cap : RuntimeCap) : Keeps m (m.allocate cap).2 := by
  rcases m.allocate_cases cap with ⟨next, hle, heq⟩ | ⟨id, next, hfree, hle, hlt, heq⟩
  · rw [heq]
    exact keeps_skip hle
  · rw [heq]
    exact keeps_enter cap hfree hle hlt

theorem keeps_createMailbox (m : MailboxStore) : Keeps m m.createMailbox.2 := by
  unfold MailboxStore.createMailbox
  dsimp only
  generalize hopened : ({ m with
    nextMailboxId := m.nextMailboxId + 1
    queues := m.queues.insert m.nextMailboxId ((m.queues.get? m.nextMailboxId).getD []) } :
      MailboxStore) = opened
  have hopen : Keeps m opened := by
    rw [← hopened]
    exact Keeps.of_eq rfl rfl rfl
  have hfirst := hopen.trans (keeps_allocate opened (.mailbox m.nextMailboxId .receiver))
  split
  · next heq =>
    rwa [heq] at hfirst
  rename_i receiver n heq
  rw [heq] at hfirst
  have hsecond := hfirst.trans (keeps_allocate n (.mailbox m.nextMailboxId .sender))
  split
  · next heq =>
    rwa [heq] at hsecond
  · next heq =>
    rwa [heq] at hsecond

theorem keeps_deliver (m : MailboxStore) (sends : List MailboxSend) : Keeps m (m.deliver sends) := by
  unfold MailboxStore.deliver
  induction sends generalizing m with
  | nil => exact Keeps.of_eq rfl rfl rfl
  | cons send sends ih =>
    refine Keeps.trans ?_ (ih _)
    dsimp only
    split
    · exact Keeps.of_eq rfl rfl rfl
    · exact Keeps.of_eq rfl rfl rfl

theorem keeps_drainReceiver {n : MailboxStore} {receiver : Value} {messages : List MailboxMessage}
    (h : m.drainReceiver receiver = .ok (messages, n)) : Keeps m n := by
  unfold MailboxStore.drainReceiver at h
  rcases hmailbox : m.mailboxForReceiver receiver with _ | mailbox
  · rw [hmailbox] at h
    cases h
  rw [hmailbox] at h
  obtain ⟨rfl, rfl⟩ := Prod.mk.inj (Except.ok.inj h)
  exact Keeps.of_eq rfl rfl rfl

theorem Inv.withMailboxes (h : s.Inv base)
    (hnext : s.runtime.mailboxes.nextCapId ≤ m.nextCapId) (hnumbered : m.Numbered)
    (hdelivered : m.delivered = s.runtime.mailboxes.delivered)
    (hactive : ∀ c x, s.runtime.shape c = some x → m.Reachable c)
    (hpending : ∀ caller, ∀ c ∈ registered (s.pending caller), m.Reachable c) :
    (s.withMailboxes m).Inv base where
  whole := ⟨h.whole.keyed, hactive, h.whole.indexed, fun c a ha hrevoked =>
    (h.whole.revoked c a ha hrevoked).imp fun _ hmem => hdelivered ▸ hmem⟩
  history := h.history
  cursor := h.cursor
  numbered := hnumbered
  held := ⟨fun caller operation hmem => (h.held.known caller operation hmem).trans_le hnext,
    fun caller c hc => ⟨hpending caller c hc, (h.held.ready caller c hc).2⟩, h.held.inOrder,
    h.held.apart, fun caller entry hentry => h.held.fresh caller entry (hdelivered ▸ hentry)⟩
  handed := ⟨h.handed.nodup.of_eq hdelivered,
    fun entry hentry => h.handed.bounded entry (hdelivered ▸ hentry),
    fun entry hentry c hc => (h.handed.known entry (hdelivered ▸ hentry) c hc).trans_le hnext⟩

theorem Inv.keeps (h : s.Inv base) (hkeeps : Keeps s.runtime.mailboxes m) :
    (s.withMailboxes m).Inv base :=
  h.withMailboxes hkeeps.nextCapId (hkeeps.numbered h.numbered) hkeeps.delivered
    (fun c x hx => (h.whole.reached c x hx).imp fun _ => hkeeps.caps c _)
    fun caller c hc => (h.held.ready caller c hc).1.imp fun _ => hkeeps.caps c _

/-- **Closing a mailbox that is not used breaks no subscription.** -/
theorem Inv.closeMailbox (h : s.Inv base) {receiver : Value}
    (hclose : s.runtime.mailboxes.closeMailbox receiver = .ok m)
    (hfits : s.Fits (.closeMailbox receiver)) : (s.withMailboxes m).Inv base := by
  unfold MailboxStore.closeMailbox at hclose
  rcases hmailbox : s.runtime.mailboxes.mailboxForReceiver receiver with _ | mailbox
  · rw [hmailbox] at hclose
    cases hclose
  rw [hmailbox] at hclose
  obtain rfl := Except.ok.inj hclose
  obtain ⟨hactive, hpending⟩ := hfits mailbox hmailbox
  have hkeep : ∀ c, s.runtime.mailboxes.caps.get? c ≠ some (.subscription mailbox) →
      s.runtime.mailboxes.Reachable c → MailboxStore.Reachable { s.runtime.mailboxes with
        caps := s.runtime.mailboxes.caps.retain fun _ cap => cap.target ≠ mailbox
        queues := s.runtime.mailboxes.queues.erase mailbox
        subscriptionDeliveries := s.runtime.mailboxes.subscriptionDeliveries.erase mailbox } c := by
    rintro c hne ⟨other, hcap⟩
    refine ⟨other, ?_⟩
    have hother : other ≠ mailbox := fun heq => hne (heq ▸ hcap)
    dsimp only
    rw [get?_retain, hcap]
    simp [RuntimeCap.target, hother]
  have hnumbered : MailboxStore.Numbered { s.runtime.mailboxes with
      caps := s.runtime.mailboxes.caps.retain fun _ cap => cap.target ≠ mailbox
      queues := s.runtime.mailboxes.queues.erase mailbox
      subscriptionDeliveries := s.runtime.mailboxes.subscriptionDeliveries.erase mailbox } := by
    intro c cap hcap
    dsimp only at hcap
    rw [get?_retain] at hcap
    exact h.numbered c cap (filter_eq_some_iff.mp hcap).1
  refine h.withMailboxes le_rfl hnumbered rfl
    (fun c x hx => hkeep c (hactive c ?_) (h.whole.reached c x hx))
    fun caller c hc => hkeep c (hpending caller c hc) (h.held.ready caller c hc).1
  obtain ⟨a, ha, -⟩ := map_eq_some_iff.mp hx
  rw [ha]
  exact nofun

/-! ### Cancellations -/

/-- A subscription that is taken out was not waiting to be registered. -/
theorem Inv.remove (h : s.Inv base) {c : CapabilityId}
    (hc : ∀ caller, c ∉ registered (s.pending caller)) :
    ({ s with runtime := s.runtime.remove c } : DeliverySystem).Inv base := by
  obtain ⟨hwhole, hapart, hgone, hdelivered⟩ := SubscriptionRuntime.remove_spec h.whole c
  refine ⟨hwhole, h.history, h.cursor.of_eq hapart.cursor fun c' hnone => ?_,
    hapart.numbered h.numbered, ⟨fun caller operation hmem => ?_, fun caller => ?_, h.held.inOrder,
      h.held.apart, ?_⟩, ?_, ?_, ?_⟩
  · by_cases heq : c' = c
    · rw [heq, hgone]
    · rw [hapart.shape c' heq, hnone]
  · dsimp only
    rw [hapart.nextCapId]
    exact h.held.known caller operation hmem
  · exact hapart.ready (hc caller) (h.held.ready caller)
  · dsimp only
    rw [hdelivered]
    exact h.held.fresh
  · exact h.handed.nodup.of_eq hdelivered
  · dsimp only
    rw [hdelivered, hapart.cursor]
    exact h.handed.bounded
  · dsimp only
    rw [hdelivered, hapart.nextCapId]
    exact h.handed.known

theorem Inv.removeAll (h : s.Inv base) {cs : List CapabilityId}
    (hcs : ∀ c ∈ cs, ∀ caller, c ∉ registered (s.pending caller)) :
    ({ s with runtime := cs.foldl SubscriptionRuntime.remove s.runtime } :
      DeliverySystem).Inv base := by
  induction cs generalizing s with
  | nil => exact h
  | cons c cs ih =>
    exact ih (h.remove (hcs c mem_cons_self)) fun c' hc' => hcs c' (mem_cons_of_mem c hc')

/-- What is active is not waiting to be registered. -/
theorem Inv.notMem_registered (h : s.Inv base) {entry : CapabilityId × ActiveSubscription}
    (hentry : entry ∈ s.runtime.store.subscriptions.list) (caller : ℕ) :
    entry.1 ∉ registered (s.pending caller) := by
  intro hmem
  have hnone := (h.held.ready caller entry.1 hmem).2
  rw [SubscriptionRuntime.shape, get?_eq_some.mpr hentry] at hnone
  cases hnone

theorem Inv.removeFiltered (h : s.Inv base) (p : CapabilityId × ActiveSubscription → Bool) :
    ({ s with
      runtime := ((s.runtime.store.subscriptions.list.filter p).map Prod.fst).foldl
        SubscriptionRuntime.remove s.runtime } : DeliverySystem).Inv base := by
  refine h.removeAll fun c hc caller => ?_
  obtain ⟨entry, hentry, rfl⟩ := mem_map.mp hc
  exact h.notMem_registered (mem_of_mem_filter hentry) caller

/-- Releasing subscriptions leaves the others in reach. -/
theorem releaseAll_spec : ∀ (cs : List CapabilityId) (m : MailboxStore),
    (cs.foldl MailboxStore.releaseSubscription m).nextCapId = m.nextCapId ∧
      (m.Numbered → (cs.foldl MailboxStore.releaseSubscription m).Numbered) ∧
      (cs.foldl MailboxStore.releaseSubscription m).delivered = m.delivered ∧
      ∀ c ∉ cs, (cs.foldl MailboxStore.releaseSubscription m).caps.get? c = m.caps.get? c
  | [], _ => ⟨rfl, id, rfl, fun _ _ => rfl⟩
  | c :: cs, m => by
    obtain ⟨hnext, hnumbered, hdelivered, hcaps⟩ := releaseAll_spec cs (m.releaseSubscription c)
    refine ⟨hnext.trans ?_, fun h => hnumbered (h.releaseSubscription c), hdelivered.trans ?_,
      fun c' hc' => ?_⟩
    · unfold MailboxStore.releaseSubscription
      split
      · rfl
      · rfl
    · unfold MailboxStore.releaseSubscription
      split
      · rfl
      · rfl
    · rw [mem_cons, not_or] at hc'
      exact (hcaps c' hc'.2).trans (MailboxStore.get?_releaseSubscription_of_ne hc'.1)

theorem Inv.cancelAll (h : s.Inv base) : (s.step .cancelAll).Inv base := by
  obtain ⟨hnext, hnumbered, hdelivered, hcaps⟩ :=
    releaseAll_spec s.runtime.store.subscriptions.keys s.runtime.mailboxes
  refine ⟨⟨nofun, nofun, nofun, nofun⟩, h.history, h.cursor.of_eq rfl fun _ _ => rfl,
    hnumbered h.numbered,
    ⟨fun caller operation hmem => ?_, fun caller c hc => ⟨?_, rfl⟩, h.held.inOrder, h.held.apart,
      fun caller entry hentry => h.held.fresh caller entry (hdelivered ▸ hentry)⟩,
    ⟨h.handed.nodup.of_eq hdelivered,
      fun entry hentry => h.handed.bounded entry (hdelivered ▸ hentry),
      fun entry hentry c hc =>
        hnext.symm ▸ h.handed.known entry (hdelivered ▸ hentry) c hc⟩⟩
  · exact hnext.symm ▸ h.held.known caller operation hmem
  · obtain ⟨mailbox, hcap⟩ := (h.held.ready caller c hc).1
    refine ⟨mailbox, (hcaps c fun hkey => ?_).trans hcap⟩
    obtain ⟨entry, hentry, rfl⟩ := mem_map.mp hkey
    exact h.notMem_registered hentry caller hc

/-! ### What callers hold -/

theorem pending_hold_self (caller : ℕ) (operations : List SubscriptionOperation) :
    (s.hold caller operations).pending caller = operations := Function.update_self _ _ _

theorem pending_hold_of_ne {caller other : ℕ} (h : other ≠ caller)
    (operations : List SubscriptionOperation) :
    (s.hold caller operations).pending other = s.pending other := Function.update_of_ne h _ _

variable {operations : List SubscriptionOperation}

theorem Inv.hold (h : s.Inv base) {caller : ℕ} (hknown : ∀ operation ∈ operations,
      operation.capability.raw.toNat < s.runtime.mailboxes.nextCapId)
    (hready : s.runtime.Ready operations) (horder : InOrder operations)
    (hapart : ∀ other, other ≠ caller →
      (∀ operation ∈ operations, operation.capability ∉ registered (s.pending other)) ∧
        ∀ operation ∈ s.pending other, operation.capability ∉ registered operations)
    (hfresh : ∀ entry ∈ s.runtime.mailboxes.delivered, ∀ c, entry.subscription = some c →
      c ∉ registered operations) :
    (s.hold caller operations).Inv base := by
  refine ⟨h.whole, h.history, h.cursor, h.numbered, ⟨fun c => ?_, fun c => ?_, fun c => ?_,
    fun c d hcd => ?_, fun c => ?_⟩, ⟨h.handed.nodup, h.handed.bounded, h.handed.known⟩⟩
  · by_cases hc : c = caller
    · rwa [hc, pending_hold_self]
    · rw [pending_hold_of_ne hc]
      exact h.held.known c
  · by_cases hc : c = caller
    · rwa [hc, pending_hold_self]
    · rw [pending_hold_of_ne hc]
      exact h.held.ready c
  · by_cases hc : c = caller
    · rwa [hc, pending_hold_self]
    · rw [pending_hold_of_ne hc]
      exact h.held.inOrder c
  · by_cases hc : c = caller
    · have hd : d ≠ caller := hc ▸ hcd.symm
      rw [hc, pending_hold_self, pending_hold_of_ne hd]
      exact (hapart d hd).1
    rw [pending_hold_of_ne hc]
    by_cases hd : d = caller
    · rw [hd, pending_hold_self]
      exact (hapart c hc).2
    · rw [pending_hold_of_ne hd]
      exact h.held.apart c d hcd
  · by_cases hc : c = caller
    · rwa [hc, pending_hold_self]
    · rw [pending_hold_of_ne hc]
      exact h.held.fresh c

theorem Inv.hold_nil (h : s.Inv base) (caller : ℕ) : (s.hold caller []).Inv base :=
  h.hold nofun nofun trivial (fun _ _ => ⟨nofun, fun _ _ => not_mem_nil⟩)
    fun _ _ _ _ => not_mem_nil

theorem inOrder_append_one {last : SubscriptionOperation} (h : InOrder operations)
    (hlast : ∀ operation ∈ operations, last.registered? ≠ some operation.capability) :
    InOrder (operations ++ [last]) := by
  induction operations with
  | nil => exact ⟨not_mem_nil, trivial⟩
  | cons operation operations ih =>
    refine ⟨fun hmem => ?_, ih h.2 fun o ho => hlast o (mem_cons_of_mem _ ho)⟩
    have hmem : operation.capability ∈ registered (operations ++ [last]) := hmem
    rw [registered_append, mem_append] at hmem
    rcases hmem with hmem | hmem
    · exact h.1 hmem
    · obtain ⟨found, hfound, heq⟩ := mem_filterMap.mp hmem
      rw [mem_singleton.mp hfound] at heq
      exact hlast operation mem_cons_self heq

/-- **A subscription gets a number that none had before**, or is refused. -/
theorem subscribeChanges_cases (authority : AuthorityContext) (context : RuntimeContext)
    (request : SubscriptionRequest) (m : MailboxStore) :
    (∃ error next, m.nextCapId ≤ next ∧ subscribeChanges authority context request m =
      (.error error, { m with nextCapId := next })) ∨
    ∃ id mailbox next, m.mailboxForSender request.sender = .ok mailbox ∧ m.caps.get? id = none ∧
      m.nextCapId ≤ id.raw.toNat ∧ id.raw.toNat < next ∧
      subscribeChanges authority context request m =
        (.ok (.register id request context authority.root),
          { m with nextCapId := next, caps := m.caps.insert id (.subscription mailbox) }) := by
  unfold subscribeChanges
  split
  · exact .inl ⟨_, m.nextCapId, le_rfl, rfl⟩
  split
  · exact .inl ⟨_, m.nextCapId, le_rfl, rfl⟩
  split
  · exact .inl ⟨_, m.nextCapId, le_rfl, rfl⟩
  split
  · exact .inl ⟨_, m.nextCapId, le_rfl, rfl⟩
  unfold MailboxStore.allocateSubscription
  cases m.mailboxForSender request.sender with
  | error e => exact .inl ⟨e, m.nextCapId, le_rfl, rfl⟩
  | ok mailbox =>
    rcases m.allocate_cases (.subscription mailbox) with
      ⟨next, hle, heq⟩ | ⟨id, next, hfree, hle, hlt, heq⟩
    · dsimp only
      rw [heq]
      exact .inl ⟨_, next, hle, rfl⟩
    · dsimp only
      rw [heq]
      exact .inr ⟨id, mailbox, next, rfl, hfree, hle, hlt, rfl⟩

theorem Inv.subscribe (h : s.Inv base) (caller : ℕ) (authority : AuthorityContext)
    (context : RuntimeContext) (request : SubscriptionRequest) :
    (s.step (.subscribe caller authority context request)).Inv base := by
  simp only [step]
  rcases subscribeChanges_cases authority context request s.runtime.mailboxes with
    ⟨error, next, hle, heq⟩ | ⟨id, mailbox, next, -, hfree, hle, hlt, heq⟩
  · rw [heq]
    exact h.keeps (keeps_skip hle)
  · rw [heq]
    dsimp only
    have hkeeps := keeps_enter (.subscription mailbox) hfree hle hlt
    -- the new number is none of those that callers hold
    have hnew : ∀ c, ∀ operation ∈ s.pending c, operation.capability ≠ id := by
      rintro c operation hmem rfl
      have hknown := h.held.known c operation hmem
      omega
    have hnotIn : ∀ c, id ∉ registered (s.pending c) := by
      intro c hmem
      obtain ⟨found, hfound, heq⟩ := mem_filterMap.mp hmem
      cases found with
      | register subscription _ _ _ =>
        exact hnew c _ hfound (some.inj heq)
      | cancel subscription => exact nomatch heq
    have hmailboxes := h.keeps hkeeps
    refine hmailboxes.hold (fun operation hmem => ?_) (fun c hc => ?_)
      (inOrder_append_one (h.held.inOrder caller) fun operation hmem => ?_) (fun other hother =>
        ⟨fun operation hmem => ?_, fun operation hmem => ?_⟩) fun entry hentry c hc => ?_
    · rcases mem_append.mp hmem with hmem | hmem
      · exact (h.held.known caller operation hmem).trans_le hkeeps.nextCapId
      · rwa [mem_singleton.mp hmem]
    · rw [registered_append, mem_append] at hc
      rcases hc with hc | hc
      · exact hmailboxes.held.ready caller c hc
      have hcid : c = id := by simpa [registered, SubscriptionOperation.registered?] using hc
      refine ⟨⟨mailbox, ?_⟩, ?_⟩
      · rw [hcid]
        exact get?_insert_self
      rw [hcid]
      rcases hshape : s.runtime.shape id with _ | x
      · exact hshape
      obtain ⟨other, hcap⟩ := h.whole.reached id x hshape
      rw [hfree] at hcap
      cases hcap
    · exact fun heq => hnew caller operation hmem (some.inj heq).symm
    · rcases mem_append.mp hmem with hmem | hmem
      · exact h.held.apart caller other hother.symm operation hmem
      · rw [mem_singleton.mp hmem]
        exact hnotIn other
    · rw [registered_append, mem_append, not_or]
      refine ⟨h.held.apart other caller hother operation hmem, ?_⟩
      intro hid
      have hcid : operation.capability = id := by
        simpa [registered, SubscriptionOperation.registered?] using hid
      exact hnew other operation hmem hcid
    · rw [registered_append, mem_append, not_or]
      refine ⟨h.held.fresh caller entry hentry c hc, fun hid => ?_⟩
      have hcid : c = id := by
        simpa [registered, SubscriptionOperation.registered?] using hid
      have hknown := h.handed.known entry hentry c hc
      rw [hcid] at hknown
      omega

theorem cancelSubscription_eq_ok {subscription : Value}
    {operation : SubscriptionOperation} (h : cancelSubscription m subscription = .ok operation) :
    ∃ c, subscription.asCapability = some c ∧ operation = .cancel c ∧ m.Reachable c := by
  unfold cancelSubscription at h
  split at h
  · cases h
  rename_i c hc
  rcases hmailbox : m.subscriptionMailbox c with _ | mailbox
  · rw [hmailbox] at h
    cases h
  rw [hmailbox] at h
  exact ⟨c, hc, (Except.ok.inj h).symm, mailbox, MailboxStore.subscriptionMailbox_eq_ok.mp hmailbox⟩

theorem Inv.unsubscribe (h : s.Inv base) {caller : ℕ} {subscription : Value}
    (hfits : s.Fits (.unsubscribe caller subscription)) :
    (s.step (.unsubscribe caller subscription)).Inv base := by
  simp only [step]
  split
  · next operation heq =>
    obtain ⟨c, hc, rfl, mailbox, hcap⟩ := cancelSubscription_eq_ok heq
    have hregistered : registered (s.pending caller ++ [.cancel c]) =
      registered (s.pending caller) := by
      rw [registered_append]
      exact append_nil _
    refine h.hold (fun operation hmem => ?_) (fun c' hc' => ?_)
      (inOrder_append_one (h.held.inOrder caller) fun _ _ => nofun) (fun other hother =>
        ⟨fun operation hmem => ?_, fun operation hmem => ?_⟩) fun entry hentry c hc => ?_
    · rcases mem_append.mp hmem with hmem | hmem
      · exact h.held.known caller operation hmem
      · rw [mem_singleton.mp hmem]
        exact h.numbered c _ hcap
    · rw [hregistered] at hc'
      exact h.held.ready caller c' hc'
    · rcases mem_append.mp hmem with hmem | hmem
      · exact h.held.apart caller other hother.symm operation hmem
      · rw [mem_singleton.mp hmem]
        exact hfits c hc other hother
    · rw [hregistered]
      exact h.held.apart other caller hother operation hmem
    · rw [hregistered]
      exact h.held.fresh caller entry hentry c hc
  · exact h

theorem capability_of_mem_registered {c : CapabilityId}
    (h : c ∈ registered operations) : ∃ operation ∈ operations, operation.capability = c := by
  obtain ⟨operation, hmem, heq⟩ := mem_filterMap.mp h
  cases operation with
  | register subscription _ _ _ => exact ⟨_, hmem, some.inj heq⟩
  | cancel subscription => exact nomatch heq

/-- **What is given up was not registered**, and is in no other caller's hands. -/
theorem Inv.discard (h : s.Inv base) (caller : ℕ) : (s.step (.discard caller)).Inv base := by
  obtain ⟨hnext, hnumbered, hdelivered, hcaps⟩ :=
    releaseAll_spec (registered (s.pending caller)) s.runtime.mailboxes
  refine (h.hold_nil caller).withMailboxes hnext.ge (hnumbered h.numbered) hdelivered
    (fun c x hx => ?_)
    fun other c hc => ?_
  · obtain ⟨mailbox, hcap⟩ := h.whole.reached c x hx
    refine ⟨mailbox, (hcaps c fun hmem => ?_).trans hcap⟩
    have hsome : s.runtime.shape c = some x := hx
    rw [(h.held.ready caller c hmem).2] at hsome
    cases hsome
  · by_cases hother : other = caller
    · rw [hother, pending_hold_self] at hc
      cases hc
    rw [pending_hold_of_ne hother] at hc
    obtain ⟨mailbox, hcap⟩ := (h.held.ready other c hc).1
    refine ⟨mailbox, (hcaps c fun hmem => ?_).trans hcap⟩
    obtain ⟨operation, hoperation, rfl⟩ := capability_of_mem_registered hc
    exact h.held.apart other caller hother operation hoperation hmem

/-! ### Commits and boundaries -/

/-- **A commit that is published is newer than the cursor.** -/
theorem Inv.publish (h : s.Inv base) (commit : SettledCommit) (next : Published) :
    (s.step (.publish commit next)).Inv base := by
  have hcursor := h.cursor
  refine ⟨h.whole, ⟨h.history.base_le.trans (Nat.le_succ _), ?_⟩, ?_, h.numbered,
    ⟨h.held.known, h.held.ready, h.held.inOrder, h.held.apart, h.held.fresh⟩, h.handed.nodup,
    h.handed.bounded, h.handed.known⟩
  · simp only [step]
    have hbase := h.history.base_le
    rw [map_append, h.history.versions, Nat.succ_sub hbase, range'_concat]
    simp only [map_cons, map_nil]
    congr 2
    omega
  · unfold SubscriptionRuntime.CursorIn at hcursor ⊢
    simp only [step]
    split at hcursor
    · exact hcursor
    · exact ⟨hcursor.1, hcursor.2.trans (Nat.le_succ _)⟩

/-- What a dispatch tells is new. -/
theorem Inv.dispatch (h : s.Inv base) {t : SubscriptionRuntime} {l : List MailboxEntry}
    (hframe : SubscriptionRuntime.Frame s.runtime t)
    (hl : t.mailboxes.delivered = s.runtime.mailboxes.delivered ++ l)
    (hhanded : SubscriptionRuntime.Handed s.runtime (s.runtime.missed s.published) l)
    (hcursor : t.store.dispatchedCursor = some s.published.version) :
    ({ s with runtime := t } : DeliverySystem).Inv base := by
  have hin := h.cursor
  unfold SubscriptionRuntime.CursorIn at hin
  -- what was told is not newer than the cursor, what was missed is
  have hnew : ∀ entry ∈ l, ∃ cursor, s.runtime.store.dispatchedCursor = some cursor ∧
      cursor < entry.message.cursor ∧ entry.message.cursor ≤ s.published.version := by
    intro entry hentry
    obtain ⟨commit, hcommit, hversion⟩ := hhanded.versions entry hentry
    unfold SubscriptionRuntime.missed at hcommit
    cases hat : s.runtime.store.dispatchedCursor with
    | none =>
      rw [hat] at hcommit
      cases hcommit
    | some cursor =>
      rw [hat] at hcommit
      obtain ⟨hmem, hlt⟩ := h.history.mem_commitsSince.mp hcommit
      exact ⟨cursor, rfl, hversion ▸ hlt, (h.history.version_mem.mp ⟨commit, hmem, hversion⟩).2⟩
  refine ⟨hframe.whole h.whole, h.history, ?_, ?_, ⟨?_, ?_, h.held.inOrder, h.held.apart, ?_⟩,
    ?_, ?_, fun entry hentry c hc => ?_⟩
  · unfold SubscriptionRuntime.CursorIn
    rw [hcursor]
    exact ⟨h.history.base_le, le_rfl⟩
  · unfold MailboxStore.Numbered
    dsimp only
    rw [hframe.caps, hframe.nextCapId]
    exact h.numbered
  · dsimp only
    rw [hframe.nextCapId]
    exact h.held.known
  · intro caller c hc
    obtain ⟨⟨mailbox, hcap⟩, hnone⟩ := h.held.ready caller c hc
    exact ⟨⟨mailbox, by rw [hframe.caps, hcap]⟩, (hframe.shape c).trans hnone⟩
  · dsimp only
    rw [hl]
    intro caller entry hentry c hc hmem
    rcases mem_append.mp hentry with hold | hnew
    · exact h.held.fresh caller entry hold c hc hmem
    · obtain ⟨c', hc', hlive⟩ := hhanded.live entry hnew
      obtain rfl := some.inj (hc.symm.trans hc')
      exact hlive (h.held.ready caller c hmem).2
  · unfold Once
    dsimp only
    rw [hl, map_append]
    refine nodup_append.mpr ⟨h.handed.nodup, hhanded.nodup, ?_⟩
    rintro _ hold _ hlater rfl
    obtain ⟨entry, hentry, rfl⟩ := mem_map.mp hold
    obtain ⟨later, hlater, heq⟩ := mem_map.mp hlater
    obtain ⟨cursor, hat, hle⟩ := h.handed.bounded entry hentry
    obtain ⟨cursor', hat', hlt, -⟩ := hnew later hlater
    obtain rfl := some.inj (hat.symm.trans hat')
    have hsame : later.message.cursor = entry.message.cursor := congrArg Prod.snd heq
    omega
  · dsimp only
    rw [hl, hcursor]
    refine fun entry hentry => ⟨_, rfl, ?_⟩
    rcases mem_append.mp hentry with hold | hlater
    · obtain ⟨cursor, hat, hle⟩ := h.handed.bounded entry hold
      rw [hat] at hin
      exact hle.trans hin.2
    · obtain ⟨-, -, -, hle⟩ := hnew entry hlater
      exact hle
  · dsimp only at hentry ⊢
    rw [hl] at hentry
    rw [hframe.nextCapId]
    rcases mem_append.mp hentry with hold | hlater
    · exact h.handed.known entry hold c hc
    · obtain ⟨c', hc', hlive⟩ := hhanded.live entry hlater
      obtain rfl := some.inj (hc.symm.trans hc')
      obtain ⟨x, hx⟩ := ne_none_iff_exists'.mp hlive
      obtain ⟨mailbox, hcap⟩ := h.whole.reached c x hx
      exact h.numbered c _ hcap

/-- The operations of a boundary concern the subscriptions of no other caller. -/
theorem Inv.applied (h : s.Inv base) {caller : ℕ} {t : SubscriptionRuntime}
    (hcursor : s.runtime.store.dispatchedCursor = some s.published.version)
    (happlied : SubscriptionRuntime.Applied s.published (s.pending caller) s.runtime t) :
    (({ s with runtime := t } : DeliverySystem).hold caller []).Inv base := by
  have hempty := (h.hold_nil caller).held
  obtain ⟨l, hl, hdistinct, hnew⟩ := happlied.delivered
  refine ⟨happlied.whole, h.history, ?_, happlied.numbered h.numbered,
    ⟨fun c operation hmem => ?_, fun c c' hc' => ?_, hempty.inOrder, hempty.apart, ?_⟩,
    ?_, ?_, fun entry hentry c hc => ?_⟩
  · unfold SubscriptionRuntime.CursorIn
    dsimp only [DeliverySystem.hold]
    rw [happlied.cursor, hcursor]
    exact ⟨h.history.base_le, le_rfl⟩
  · exact (hempty.known c operation hmem).trans_eq happlied.nextCapId.symm
  · by_cases hc : c = caller
    · rw [hc, pending_hold_self] at hc'
      exact absurd hc' not_mem_nil
    rw [pending_hold_of_ne hc] at hc'
    have hother : ∀ operation ∈ s.pending caller, operation.capability ≠ c' :=
      fun operation hmem heq => h.held.apart caller c (Ne.symm hc) operation hmem (heq ▸ hc')
    obtain ⟨⟨mailbox, hcap⟩, hnone⟩ := h.held.ready c c' hc'
    exact ⟨⟨mailbox, (happlied.caps c' hother).trans hcap⟩, (happlied.shape c' hother).trans hnone⟩
  · dsimp only [DeliverySystem.hold]
    rw [hl]
    intro c entry hentry c' hc' hmem
    rcases mem_append.mp hentry with hold | hlater
    · exact hempty.fresh c entry hold c' hc' hmem
    by_cases hc : c = caller
    · rw [hc, Function.update_self] at hmem
      cases hmem
    · obtain ⟨-, c'', hc'', heq⟩ := hnew entry hlater
      obtain rfl := some.inj (hc'.symm.trans heq)
      obtain ⟨operation, hoperation, rfl⟩ := capability_of_mem_registered hc''
      refine h.held.apart caller c (Ne.symm hc) operation hoperation ?_
      rwa [← pending_hold_of_ne hc []]
  · unfold Once
    dsimp only [DeliverySystem.hold]
    rw [hl, map_append]
    refine nodup_append.mpr ⟨h.handed.nodup, hdistinct, ?_⟩
    rintro _ hold _ hlater rfl
    obtain ⟨entry, hentry, rfl⟩ := mem_map.mp hold
    obtain ⟨later, hlater, heq⟩ := mem_map.mp hlater
    obtain ⟨-, c, hc, hsub⟩ := hnew later hlater
    exact h.held.fresh caller entry hentry c ((congrArg Prod.fst heq).symm.trans hsub) hc
  · dsimp only [DeliverySystem.hold]
    rw [hl, happlied.cursor]
    intro entry hentry
    rcases mem_append.mp hentry with hold | hlater
    · exact h.handed.bounded entry hold
    · exact ⟨_, hcursor, (hnew entry hlater).1⟩
  · dsimp only [DeliverySystem.hold] at hentry ⊢
    rw [hl] at hentry
    rw [happlied.nextCapId]
    rcases mem_append.mp hentry with hold | hlater
    · exact h.handed.known entry hold c hc
    · obtain ⟨-, c', hc', heq⟩ := hnew entry hlater
      obtain rfl := some.inj (hc.symm.trans heq)
      obtain ⟨operation, hoperation, rfl⟩ := capability_of_mem_registered hc'
      exact h.held.known caller operation hoperation

/-- **A boundary succeeds**, advances the cursor, skips no commit, and keeps everything in order. -/
theorem Inv.boundary (h : s.Inv base) (caller : ℕ) (order : HashOrder) :
    ∃ delivered t, s.applyBoundary caller order = (.ok delivered, t) ∧
      t.runtime.store.dispatchedCursor = some s.published.version ∧
      (∀ cursor, s.runtime.store.dispatchedCursor = some cursor →
        ∀ commit ∈ s.published.commits, cursor < commit.version →
          ∀ c a, s.runtime.store.subscriptions.get? c = some a → a.Matches s.published commit →
            t.runtime.mailboxes.Told c commit.version) ∧
      (∀ c request context root, .register c request context root ∈ s.pending caller →
        t.runtime.mailboxes.Resumes s.published c request) ∧ t.Inv base := by
  obtain ⟨here, t, l, heq, hframe, hl, hhanded, hcursor, htold⟩ :=
    SubscriptionRuntime.dispatchThrough_spec h.history order h.whole h.cursor h.handed.bounded
  have hdispatched := h.dispatch hframe hl hhanded hcursor
  obtain ⟨more, u, heq', happlied⟩ := SubscriptionRuntime.applyOperations_spec h.history
    (s.pending caller) hdispatched.whole (hdispatched.held.ready caller) (h.held.inOrder caller)
  have hboundary : s.applyBoundary caller order = (.ok (sortDedup (here ++ more)),
      ({ s with runtime := u } : DeliverySystem).hold caller []) := by
    unfold DeliverySystem.applyBoundary SubscriptionRuntime.applyBoundary
    rw [heq]
    dsimp only at heq' ⊢
    rw [heq']
    rfl
  refine ⟨_, _, hboundary, happlied.cursor.trans hcursor,
    fun cursor hat commit hcommit hlt c a ha hmatches => ?_, happlied.resumed,
    hdispatched.applied hcursor happlied⟩
  obtain ⟨l', hl', -⟩ := happlied.delivered
  refine MailboxStore.Told.mono (htold commit ?_ c a ha hmatches) (hl' ▸ subset_append_left _ _)
  unfold SubscriptionRuntime.missed
  rw [hat]
  exact h.history.mem_commitsSince.mpr ⟨hcommit, hlt⟩

/-! ## Whole runs -/

theorem Inv.step (h : s.Inv base) {action : DeliveryAction} (hfits : s.Fits action) :
    (s.step action).Inv base := by
  cases action with
  | createMailbox => exact h.keeps (keeps_createMailbox _)
  | closeMailbox receiver =>
    simp only [DeliverySystem.step]
    split
    · next hclose => exact h.closeMailbox hclose hfits
    · exact h
  | cancelForMailbox receiver =>
    simp only [DeliverySystem.step]
    unfold SubscriptionRuntime.cancelForMailbox
    cases s.runtime.mailboxes.mailboxForReceiver receiver with
    | error e => exact h
    | ok mailbox => exact h.removeFiltered _
  | cancelForEndpoint endpoint => exact h.removeFiltered _
  | cancelAll => exact h.cancelAll
  | subscribe caller authority context request => exact h.subscribe caller authority context request
  | unsubscribe caller subscription => exact h.unsubscribe hfits
  | discard caller => exact h.discard caller
  | send sends => exact h.keeps (keeps_deliver _ sends)
  | drain receiver =>
    simp only [DeliverySystem.step]
    split
    · next hdrain => exact h.keeps (keeps_drainReceiver hdrain)
    · exact h
  | publish commit next => exact h.publish commit next
  | boundary caller order =>
    obtain ⟨delivered, t, heq, -, -, -, ht⟩ := h.boundary caller order
    simp only [DeliverySystem.step]
    rwa [heq]

theorem Inv.run (h : s.Inv base) {as : List DeliveryAction} (hfits : s.FitsAll as) :
    (s.run as).Inv base := by
  induction as generalizing s with
  | nil => exact h
  | cons a as ih => exact ih (h.step hfits.1) hfits.2

theorem inv_start (published : Published) : (start published).Inv published.version where
  whole := ⟨nofun, nofun, nofun, nofun⟩
  history := ⟨le_rfl, by simp [start]⟩
  cursor := fun _ => rfl
  numbered := nofun
  held := ⟨nofun, nofun, fun _ => trivial, nofun, nofun⟩
  handed := ⟨nodup_nil, nofun, nofun⟩

def watched : RelationId := .ofByte 7

/-- A capability of the mailbox store. -/
def cap (n : Fin 8) : CapabilityId :=
  ⟨0x00f0000000000000 + UInt64.ofNat n, by revert n; decide, by revert n; decide⟩

def inOrder : HashOrder := ⟨id, fun l => .refl l⟩

/-- A commit that changes the relation. -/
def change : DeliveryAction :=
  .publish ⟨⟨0, [], [⟨watched, [.bool true], .assert⟩]⟩, [], true⟩ .bare

end DeliverySystem

end Mica
