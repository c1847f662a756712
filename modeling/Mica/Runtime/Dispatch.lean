import Mica.Runtime.Subscription

/-!
# Runtime/Dispatch — what a boundary does when every subscription can be reached

* `SubscriptionRuntime.dispatchThrough_spec` — a dispatch puts one message in the queue for every
  commit since the last one that has changes for a subscription, and advances the cursor past them.
* `SubscriptionRuntime.applyOperations_spec` — registrations and cancellations then all succeed, and
  each leaves the other subscriptions alone.
-/

open SortedList List SortedMap SortedSet

namespace Mica

/-! ## Deliveries -/

/-- A subscription can be reached: its capability is there. -/
def MailboxStore.Reachable (mailboxes : MailboxStore) (capability : CapabilityId) : Prop :=
  ∃ mailbox, mailboxes.caps.get? capability = some (.subscription mailbox)

/-- Every capability has a number that was given out. -/
def MailboxStore.Numbered (mailboxes : MailboxStore) : Prop :=
  ∀ c cap, mailboxes.caps.get? c = some cap → c.raw.toNat < mailboxes.nextCapId

theorem MailboxStore.Numbered.releaseSubscription {mailboxes : MailboxStore}
    (h : mailboxes.Numbered) (c : CapabilityId) : (mailboxes.releaseSubscription c).Numbered := by
  unfold MailboxStore.releaseSubscription
  split
  · intro c' cap hcap
    dsimp only at hcap
    rw [get?_erase] at hcap
    split at hcap
    · cases hcap
    exact h c' cap hcap
  · exact h

/-! ### What a subscription was told -/

/-- A revoked subscription was told so. -/
def MailboxStore.ToldRevoked (m : MailboxStore) (c : CapabilityId) : Prop :=
  ∃ cursor, ⟨.marker c cursor .revoked, some c⟩ ∈ m.delivered

/-- **A subscription was told of a version**: a message about it has been put in its queue, or, before,
the marker that it is revoked. -/
def MailboxStore.Told (m : MailboxStore) (c : CapabilityId) (version : ℕ) : Prop :=
  ∃ entry ∈ m.delivered, entry.subscription = some c ∧ (entry.message.cursor = version ∨
    ∃ cursor ≤ version, entry.message = .marker c cursor .revoked)

/-- A subscription was told to start over, or that it is revoked. -/
def MailboxStore.ToldToStart (m : MailboxStore) (c : CapabilityId) (cursor : ℕ) : Prop :=
  ∃ kind, ⟨.marker c cursor kind, some c⟩ ∈ m.delivered

/-- A commit has changes for a subject. -/
def SubscriptionSubject.Matches (commit : SettledCommit) : SubscriptionSubject → Prop
  | .catalogue => commit.catalogChanges ≠ []
  | .facts id bindings => matchingChanges commit.changes id bindings ≠ ([], [])
  | .relation id bindings => commit.catalogChanges = [] ∧
      matchingChanges commit.relationChanges id bindings ≠ ([], [])

/-- **A subscription that resumes was told of every commit that it has missed**, or to start over. -/
def MailboxStore.Resumes (m : MailboxStore) (view : Published) (c : CapabilityId)
    (request : SubscriptionRequest) : Prop :=
  ∀ cursor, request.cursor = some cursor → ∀ commit ∈ view.commits, cursor < commit.version →
    request.subject.Matches commit → m.Told c commit.version ∨ m.ToldToStart c view.version

theorem MailboxStore.Told.mono {m n : MailboxStore} {c : CapabilityId} {version : ℕ}
    (h : m.Told c version) (hsub : m.delivered ⊆ n.delivered) : n.Told c version :=
  h.imp fun _ hentry => ⟨hsub hentry.1, hentry.2⟩

theorem MailboxStore.Resumes.mono {m n : MailboxStore} {view : Published} {c : CapabilityId}
    {request : SubscriptionRequest} (h : m.Resumes view c request)
    (hsub : m.delivered ⊆ n.delivered) : n.Resumes view c request :=
  fun cursor hcursor commit hcommit hnew hmatches =>
    (h cursor hcursor commit hcommit hnew hmatches).imp (fun htold => htold.mono hsub)
      fun htold => htold.imp fun _ hkind => hsub hkind

/-- **A commit has changes for a subscription**: for its subject, or, where the catalogue has changed,
other rows than those that the subscriber knows. -/
def ActiveSubscription.Matches (view : Published) (a : ActiveSubscription) (commit : SettledCommit) :
    Prop :=
  a.request.subject.Matches commit ∨ a.request.subject.isRelation = true ∧
    commit.catalogChanges ≠ [] ∧ view.scanSubject a.request.subject ≠ .ok a.baseline

/-- **What every delivery keeps**, that it succeeds where the subscription can be reached, and that it
puts messages about some versions in the queue, and one where there must be one. -/
structure Delivers (a : ActiveSubscription) (mailboxes : MailboxStore) (versions : List ℕ)
    (must : Prop) (d : Delivery) : Prop where
  caps : d.2.2.caps = mailboxes.caps
  nextCapId : d.2.2.nextCapId = mailboxes.nextCapId
  capability : d.2.1.capability = a.capability
  request : d.2.1.request = a.request
  ok : mailboxes.Reachable a.capability → ∃ delivered, d.1 = .ok delivered
  tells : ∃ l, d.2.2.delivered = mailboxes.delivered ++ l ∧
    (∀ entry ∈ l, entry.subscription = some a.capability) ∧
    (l.map fun entry => entry.message.cursor).Sublist versions ∧
    (must → (∃ delivered, d.1 = .ok delivered) → l ≠ [])
  revoked : d.2.1.revoked = true → a.revoked = true ∨
    ∃ cursor ∈ versions, ⟨.marker a.capability cursor .revoked, some a.capability⟩ ∈ d.2.2.delivered

section Deliveries

variable {view : Published} {a a' : ActiveSubscription} {mailboxes n : MailboxStore}
  {versions versions' : List ℕ} {must must' : Prop} {d e : Delivery} {message : MailboxMessage}

theorem Delivers.none (h : a'.capability = a.capability) (hrequest : a'.request = a.request)
    (hrevoked : a'.revoked = a.revoked) (hmust : ¬ must) :
    Delivers a mailboxes versions must (.ok [], a', mailboxes) :=
  ⟨rfl, rfl, h, hrequest, fun _ => ⟨[], rfl⟩,
    ⟨[], (append_nil _).symm, nofun, nil_sublist _, fun h => absurd h hmust⟩,
    fun h => .inl (hrevoked ▸ h)⟩

theorem Delivers.error (error : RuntimeError) (h : ¬ mailboxes.Reachable a.capability) :
    Delivers a mailboxes versions must (.error error, a, mailboxes) :=
  ⟨rfl, rfl, rfl, rfl, fun hreach => absurd hreach h,
    ⟨[], (append_nil _).symm, nofun, nil_sublist _, fun _ hok => hok.elim nofun⟩, .inl⟩

/-- One message is put in the queue. -/
theorem Delivers.sent {mailbox : ℕ} (hcaps : n.caps = mailboxes.caps)
    (hnext : n.nextCapId = mailboxes.nextCapId)
    (hsent : n.delivered = mailboxes.delivered ++ [⟨message, some a.capability⟩])
    (h : a'.capability = a.capability) (hrequest : a'.request = a.request)
    (hrevoked : a'.revoked = true → a.revoked = true ∨
      message = .marker a.capability message.cursor .revoked) :
    Delivers a mailboxes [message.cursor] must (.ok [mailbox], a', n) := by
  refine ⟨hcaps, hnext, h, hrequest, fun _ => ⟨_, rfl⟩, ⟨_, hsent, fun entry hentry => ?_,
    Sublist.refl _, fun _ _ => cons_ne_nil _ _⟩, fun ha => (hrevoked ha).imp_right fun heq => ?_⟩
  · rw [mem_singleton.mp hentry]
  · refine ⟨_, mem_cons_self, ?_⟩
    rw [hsent, ← heq]
    exact mem_append_right _ mem_cons_self

theorem Delivers.of_eq (h : Delivers a' mailboxes versions must d)
    (hcapability : a'.capability = a.capability) (hrequest : a'.request = a.request)
    (hrevoked : a'.revoked = a.revoked) (hmust : must' → must) :
    Delivers a mailboxes versions must' d := by
  obtain ⟨hcaps, hnext, hcap, hreq, hok, htells, hrev⟩ := h
  rw [hcapability] at hcap hok htells hrev
  rw [hrequest] at hreq
  rw [hrevoked] at hrev
  obtain ⟨l, hl, hsub, hversions, hnil⟩ := htells
  exact ⟨hcaps, hnext, hcap, hreq, hok, ⟨l, hl, hsub, hversions, fun hm => hnil (hmust hm)⟩, hrev⟩

theorem Delivers.subset (h : Delivers a mailboxes versions must d) :
    mailboxes.delivered ⊆ d.2.2.delivered := by
  obtain ⟨l, hl, -⟩ := h.tells
  rw [hl]
  exact subset_append_left _ _

/-- **A message that must be there tells of its version.** -/
theorem Delivers.told {version : ℕ} (h : Delivers a mailboxes [version] must d) (hmust : must)
    (hok : ∃ delivered, d.1 = .ok delivered) : d.2.2.Told a.capability version := by
  obtain ⟨l, hl, hsub, hversions, hnil⟩ := h.tells
  obtain ⟨entry, hentry⟩ := exists_mem_of_ne_nil l (hnil hmust hok)
  refine ⟨entry, hl ▸ mem_append_right _ hentry, hsub entry hentry, .inl ?_⟩
  exact mem_singleton.mp (hversions.subset (mem_map_of_mem hentry))

/-- One delivery after another. -/
theorem Delivers.trans (h : Delivers a mailboxes versions must d)
    (h' : Delivers d.2.1 d.2.2 versions' must' e) :
    Delivers a mailboxes (versions ++ versions') False e := by
  obtain ⟨l, hl, hsub, hversions, -⟩ := h.tells
  obtain ⟨l', hl', hsub', hversions', -⟩ := h'.tells
  rw [h.capability] at hsub'
  refine ⟨h'.caps.trans h.caps, h'.nextCapId.trans h.nextCapId, h'.capability.trans h.capability,
    h'.request.trans h.request, fun ⟨mailbox, hcap⟩ => ?_, ⟨l ++ l', ?_, fun entry hentry => ?_, ?_,
      False.elim⟩, fun hrevoked => ?_⟩
  · exact h'.ok ⟨mailbox, by rw [h.caps, h.capability, hcap]⟩
  · rw [hl', hl, append_assoc]
  · exact (mem_append.mp hentry).elim (hsub entry) (hsub' entry)
  · rw [map_append]
    exact hversions.append hversions'
  · rcases h'.revoked hrevoked with hfirst | ⟨cursor, hcursor, hmem⟩
    · refine (h.revoked hfirst).imp_right ?_
      exact fun ⟨cursor, hcursor, hmem⟩ => ⟨cursor, mem_append_left _ hcursor, h'.subset hmem⟩
    · exact .inr ⟨cursor, mem_append_right _ hcursor, h.capability ▸ hmem⟩

namespace ActiveSubscription

/-- A message that replaces those of the subscription. -/
theorem delivers_replace (message : MailboxMessage) (f : ActiveSubscription)
    (hf : f.capability = a.capability) (hrequest : f.request = a.request)
    (hrevoked : f.revoked = true → a.revoked = true ∨
      message = .marker a.capability message.cursor .revoked) :
    Delivers a mailboxes [message.cursor] must
      (match mailboxes.replaceSubscriptionMessage a.capability message with
        | .error error => (.error error, a, mailboxes)
        | .ok (mailbox, mailboxes) => (.ok [mailbox], f, mailboxes)) := by
  split
  · next error hfound =>
    refine Delivers.error error fun ⟨mailbox, hcap⟩ => ?_
    obtain ⟨r, hr⟩ := MailboxStore.exists_replaceSubscriptionMessage hcap message
    rw [hr] at hfound
    cases hfound
  · next mailbox mailboxes' hfound =>
    obtain ⟨hcaps, hnext, hsent⟩ := MailboxStore.replaceSubscriptionMessage_frame hfound
    exact Delivers.sent hcaps hnext hsent hf hrequest hrevoked

theorem delivers_resynchronize (a : ActiveSubscription) (mailboxes : MailboxStore) (cursor : ℕ) :
    Delivers a mailboxes [cursor] must (a.resynchronize mailboxes cursor) :=
  delivers_replace (.marker a.capability cursor .resynchronize) _ rfl rfl .inl

theorem delivers_enqueue (a : ActiveSubscription) (mailboxes : MailboxStore)
    (message : MailboxMessage) (entryCount : ℕ) :
    Delivers a mailboxes [message.cursor] must
      (a.enqueue mailboxes message message.cursor entryCount) := by
  unfold enqueue
  split
  · exact delivers_resynchronize a mailboxes _
  split
  · next error hfound =>
    refine Delivers.error error fun ⟨mailbox, hcap⟩ => ?_
    obtain ⟨r, hr⟩ := MailboxStore.exists_deliverSubscription hcap message
      (.marker a.capability message.cursor .resynchronize) a.request.queueBudget
    rw [hr] at hfound
    cases hfound
  · next mailbox overflow mailboxes' hfound =>
    obtain ⟨hcaps, hnext, sent, rfl | rfl, hsent⟩ := MailboxStore.deliverSubscription_frame hfound
    · exact Delivers.sent hcaps hnext hsent rfl rfl .inl
    · exact @Delivers.sent _ _ _ _ _ (.marker a.capability message.cursor .resynchronize) _ hcaps hnext
        hsent rfl rfl .inl

theorem delivers_sendChanges (a : ActiveSubscription) (mailboxes : MailboxStore) (cursor : ℕ)
    (subject : ChangeSubject) (assertions retractions : List Tuple) :
    Delivers a mailboxes [cursor] ((assertions, retractions) ≠ ([], []))
      (a.sendChanges mailboxes cursor subject assertions retractions) := by
  unfold sendChanges
  split
  · next hempty => exact Delivers.none rfl rfl rfl fun h => h (Prod.mk_inj.mpr hempty)
  · exact delivers_enqueue a mailboxes (.changes _ _ _ _ _) _

/-- **A commit is handed to a subscription**: where there is something to tell, it is told. -/
theorem delivers_deliverCommit (view : Published) (a : ActiveSubscription) (mailboxes : MailboxStore)
    (commit : SettledCommit) : Delivers a mailboxes [commit.version]
      (a.revoked = false ∧ a.Matches view commit) (a.deliverCommit view mailboxes commit) := by
  unfold deliverCommit
  split
  · next hrevoked =>
    refine Delivers.none rfl rfl rfl fun h => ?_
    rw [hrevoked] at h
    exact Bool.noConfusion h.1
  split
  · exact delivers_resynchronize a mailboxes _
  split
  · exact delivers_replace (.marker a.capability commit.version .revoked) _ rfl rfl fun _ => .inr rfl
  unfold Matches SubscriptionSubject.Matches
  rcases a.request.subject with _ | ⟨id, bindings⟩ | ⟨id, bindings⟩
  · dsimp only
    split
    · next hnone =>
      exact Delivers.none rfl rfl rfl fun h => h.2.elim (fun hsome => hsome hnone) nofun
    · exact delivers_enqueue a mailboxes (.catalogueChanges _ _ _) _
  · refine (delivers_sendChanges a mailboxes _ _ _ _).of_eq rfl rfl rfl fun h => ?_
    exact h.2.elim (fun hsome => hsome) nofun
  dsimp only
  split
  · next hnone =>
    refine (delivers_sendChanges _ mailboxes _ _ _ _).of_eq rfl rfl rfl fun h => ?_
    exact h.2.elim (fun hsome => hsome.2) fun hrows => absurd hnone hrows.2.1
  rename_i hcatalog
  split
  · exact delivers_resynchronize a mailboxes _
  · next current hscan =>
    refine (delivers_sendChanges _ mailboxes _ _ _ _).of_eq rfl rfl rfl fun h heq => ?_
    refine h.2.elim (fun hnone => hcatalog hnone.1) fun hrows => hrows.2.2 ?_
    -- no row is new and none is gone
    obtain ⟨hnew, hgone⟩ := Prod.mk_inj.mp heq
    rw [hscan]
    refine congrArg Except.ok (SortedSet.ext_mem fun tuple => ⟨fun hin => ?_, fun hin => ?_⟩)
    · simpa [hin] using filter_eq_nil_iff.mp hnew tuple hin
    · simpa [hin] using filter_eq_nil_iff.mp hgone tuple hin

theorem delivers_deliverMissed (view : Published) : ∀ (commits : List SettledCommit)
    (a : ActiveSubscription) (mailboxes : MailboxStore), Delivers a mailboxes
      (commits.map fun commit => commit.version) False (deliverMissed view commits a mailboxes)
  | [], _, _ => Delivers.none rfl rfl rfl id
  | commit :: commits, a, mailboxes => by
    have hfirst := delivers_deliverCommit view a mailboxes commit
    unfold deliverMissed
    split
    · next hd =>
      rw [hd] at hfirst
      obtain ⟨l, hl, hsub, hversions, -⟩ := hfirst.tells
      refine ⟨hfirst.caps, hfirst.nextCapId, hfirst.capability, hfirst.request, hfirst.ok,
        ⟨l, hl, hsub, hversions.trans ?_, False.elim⟩, fun h => (hfirst.revoked h).imp_right ?_⟩
      · exact cons_sublist_cons.mpr (nil_sublist _)
      · exact fun ⟨cursor, hcursor, hmem⟩ =>
          ⟨cursor, mem_cons.mpr (.inl (mem_singleton.mp hcursor)), hmem⟩
    rename_i delivered a' mailboxes' hd
    rw [hd] at hfirst
    have hrest := hfirst.trans (delivers_deliverMissed view commits a' mailboxes')
    split
    · next hd =>
      rwa [hd] at hrest
    · next hd =>
      rw [hd] at hrest
      exact ⟨hrest.caps, hrest.nextCapId, hrest.capability, hrest.request, fun _ => ⟨_, rfl⟩,
        hrest.tells.imp fun _ h => ⟨h.1, h.2.1, h.2.2.1, False.elim⟩, hrest.revoked⟩

/-- **A subscription that resumes is told of every commit that it has missed.** -/
theorem told_deliverMissed (view : Published) : ∀ (commits : List SettledCommit)
    {a : ActiveSubscription} {mailboxes : MailboxStore},
    commits.Pairwise (fun c d => c.version < d.version) →
    (a.revoked = true → ∃ cursor, (∀ commit ∈ commits, cursor ≤ commit.version) ∧
      ⟨.marker a.capability cursor .revoked, some a.capability⟩ ∈ mailboxes.delivered) →
    (∃ delivered, (deliverMissed view commits a mailboxes).1 = .ok delivered) →
    ∀ commit ∈ commits, a.request.subject.Matches commit →
      (deliverMissed view commits a mailboxes).2.2.Told a.capability commit.version
  | [], _, _, _, _, _ => nofun
  | commit :: commits, a, mailboxes, hordered, hrevoked, hok => by
    obtain ⟨hnewer, hordered⟩ := pairwise_cons.mp hordered
    have hfirst := delivers_deliverCommit view a mailboxes commit
    unfold deliverMissed at hok ⊢
    rcases hd : a.deliverCommit view mailboxes commit with ⟨result, a', mailboxes'⟩
    rw [hd] at hok hfirst
    cases result with
    | error error =>
      obtain ⟨_, hok⟩ := hok
      cases hok
    | ok delivered =>
      have hsame : a'.capability = a.capability ∧ a'.request = a.request :=
        ⟨hfirst.capability, hfirst.request⟩
      have hrest := delivers_deliverMissed view commits a' mailboxes'
      have htold := @told_deliverMissed view commits a' mailboxes' hordered
      dsimp only at hok ⊢
      rcases hd' : deliverMissed view commits a' mailboxes' with ⟨result', a'', mailboxes''⟩
      rw [hd'] at hok hrest htold
      cases result' with
      | error error =>
        obtain ⟨_, hok⟩ := hok
        cases hok
      | ok more =>
        intro found hfound hmatches
        rcases mem_cons.mp hfound with rfl | hfound
        · refine MailboxStore.Told.mono ?_ hrest.subset
          cases hrev : a.revoked with
          | false => exact hfirst.told ⟨hrev, .inl hmatches⟩ ⟨_, rfl⟩
          | true =>
            obtain ⟨cursor, hle, hmem⟩ := hrevoked hrev
            exact ⟨_, hfirst.subset hmem, rfl, .inr ⟨cursor, hle _ mem_cons_self, rfl⟩⟩
        · rw [← hsame.1]
          refine htold (fun h => ?_) ⟨more, rfl⟩ found hfound (hsame.2 ▸ hmatches)
          rw [hsame.1]
          rcases hfirst.revoked h with hold | ⟨cursor, hcursor, hmem⟩
          · obtain ⟨cursor, hle, hmem⟩ := hrevoked hold
            exact ⟨cursor, fun c hc => hle c (mem_cons_of_mem _ hc), hfirst.subset hmem⟩
          · rw [mem_singleton.mp hcursor] at hmem
            exact ⟨_, fun c hc => (hnewer c hc).le, hmem⟩

end ActiveSubscription

end Deliveries

/-! ## A dispatch -/

namespace SubscriptionRuntime

variable {view : Published} {s t u : SubscriptionRuntime} {c : CapabilityId}

/-- What a subscription is known by: its capability and its request. -/
def shape (s : SubscriptionRuntime) (c : CapabilityId) : Option (CapabilityId × SubscriptionRequest) :=
  (s.store.subscriptions.get? c).map fun a => (a.capability, a.request)

theorem shape_eq_some {a : ActiveSubscription} (h : s.store.subscriptions.get? c = some a) :
    s.shape c = some (a.capability, a.request) := by
  rw [shape, h]
  rfl

/-- What deliveries leave alone, and that they tell of what they revoke. -/
structure Frame (s t : SubscriptionRuntime) : Prop where
  caps : t.mailboxes.caps = s.mailboxes.caps
  nextCapId : t.mailboxes.nextCapId = s.mailboxes.nextCapId
  shape : ∀ c, t.shape c = s.shape c
  byRelation : t.store.subscriptionsByRelation = s.store.subscriptionsByRelation
  delivered : s.mailboxes.delivered ⊆ t.mailboxes.delivered
  revoked : ∀ c a, t.store.subscriptions.get? c = some a → a.revoked = true →
    (∃ old, s.store.subscriptions.get? c = some old ∧ old.revoked = true) ∨ t.mailboxes.ToldRevoked c

theorem Frame.refl (s : SubscriptionRuntime) : Frame s s :=
  ⟨rfl, rfl, fun _ => rfl, rfl, Subset.refl _, fun _ a ha hrevoked => .inl ⟨a, ha, hrevoked⟩⟩

theorem Frame.trans (h : Frame s t) (h' : Frame t u) : Frame s u := by
  refine ⟨h'.caps.trans h.caps, h'.nextCapId.trans h.nextCapId,
    fun c => (h'.shape c).trans (h.shape c), h'.byRelation.trans h.byRelation,
    Subset.trans h.delivered h'.delivered, fun c a ha hrevoked => ?_⟩
  rcases h'.revoked c a ha hrevoked with ⟨old, hold, hrevoked⟩ | htold
  · exact (h.revoked c old hold hrevoked).imp_right fun ⟨w, hw⟩ => ⟨w, h'.delivered hw⟩
  · exact .inr htold

/-- **A runtime without a broken subscription**: each stands under its own capability, can be reached,
is found by the relation it is about, and was told if it is revoked. -/
structure Whole (s : SubscriptionRuntime) : Prop where
  keyed : ∀ c x, s.shape c = some x → x.1 = c
  reached : ∀ c x, s.shape c = some x → s.mailboxes.Reachable c
  indexed : ∀ c x relation, s.shape c = some x → x.2.subject.relation? = some relation →
    c ∈ s.store.ofRelation relation
  revoked : ∀ c a, s.store.subscriptions.get? c = some a → a.revoked = true →
    s.mailboxes.ToldRevoked c

theorem Frame.whole (h : Frame s t) (hwhole : s.Whole) : t.Whole where
  keyed c x hx := hwhole.keyed c x (h.shape c ▸ hx)
  reached c x hx := by
    have hreached := hwhole.reached c x (h.shape c ▸ hx)
    unfold MailboxStore.Reachable at hreached ⊢
    rwa [h.caps]
  indexed c x relation hx hrelation := by
    have hindexed := hwhole.indexed c x relation (h.shape c ▸ hx) hrelation
    unfold SubscriptionStore.ofRelation at hindexed ⊢
    rwa [h.byRelation]
  revoked c a ha hrevoked := by
    rcases h.revoked c a ha hrevoked with ⟨old, hold, hrevoked⟩ | htold
    · exact (hwhole.revoked c old hold hrevoked).imp fun _ hw => h.delivered hw
    · exact htold

/-- Storing a subscription after a delivery. -/
theorem frame_record {a : ActiveSubscription} {versions : List ℕ} {must : Prop} {d : Delivery}
    (hwhole : s.Whole) (ha : s.store.subscriptions.get? c = some a)
    (hd : Delivers a s.mailboxes versions must d) : Frame s (s.record d.2.1 d.2.2) := by
  have hkey : a.capability = c := hwhole.keyed c _ (shape_eq_some ha)
  refine ⟨hd.caps, hd.nextCapId, fun c' => ?_, rfl, hd.subset, fun c' a' ha' hrevoked => ?_⟩
  · unfold shape record
    dsimp only
    rw [hd.capability, hkey, get?_insert]
    split
    · next heq => rw [heq, ha, Option.map_some, Option.map_some, hd.capability, hd.request]
    · rfl
  · unfold record at ha'
    dsimp only at ha'
    rw [hd.capability, hkey, get?_insert] at ha'
    split at ha'
    · next heq =>
      obtain rfl := Option.some.inj ha'
      rw [heq]
      rcases hd.revoked hrevoked with hold | ⟨cursor, -, hmem⟩
      · exact .inl ⟨a, ha, hold⟩
      · exact .inr ⟨cursor, hkey ▸ hmem⟩
    · exact .inl ⟨a', ha', hrevoked⟩

/-- A commit is told to a subscription: by a marker that it has to start over, or its changes. -/
def Tells (view : Published) (multiple : Bool) (a : ActiveSubscription) (commit : SettledCommit) :
    Prop :=
  (multiple && a.request.subject.isRelation) = true ∨ a.Matches view commit

/-- **A commit is handed to every candidate that is a subscription.** -/
theorem deliverTo_spec (view : Published) (multiple : Bool) (commit : SettledCommit) :
    ∀ (candidates : List CapabilityId) {s : SubscriptionRuntime}, s.Whole → candidates.Nodup →
      (∀ entry ∈ s.mailboxes.delivered, entry.message.cursor ≤ commit.version) →
      ∃ delivered t l, deliverTo view multiple commit candidates s = (.ok delivered, t) ∧ Frame s t ∧
        t.store.dispatchedCursor = s.store.dispatchedCursor ∧
        t.mailboxes.delivered = s.mailboxes.delivered ++ l ∧ (l.map MailboxEntry.address).Nodup ∧
        (∀ entry ∈ l, entry.message.cursor = commit.version ∧
          ∃ c ∈ candidates, entry.subscription = some c ∧ s.shape c ≠ none) ∧
        ∀ c ∈ candidates, ∀ a, s.store.subscriptions.get? c = some a → Tells view multiple a commit →
          t.mailboxes.Told c commit.version
  | [], s, _, _, _ => ⟨[], s, [], rfl, Frame.refl s, rfl, (append_nil _).symm, nodup_nil, nofun, nofun⟩
  | c :: candidates, s, hwhole, hnodup, hbound => by
    obtain ⟨hc, hnodup⟩ := nodup_cons.mp hnodup
    unfold deliverTo
    cases ha : s.store.subscriptions.get? c with
    | none =>
      obtain ⟨delivered, t, l, heq, hframe, hcursor, hl, hdistinct, hnew, htold⟩ :=
        deliverTo_spec view multiple commit candidates hwhole hnodup hbound
      refine ⟨delivered, t, l, heq, hframe, hcursor, hl, hdistinct, fun entry hentry => ?_,
        fun c' hc' a ha' => ?_⟩
      · obtain ⟨hversion, c', hc', hlive⟩ := hnew entry hentry
        exact ⟨hversion, c', mem_cons_of_mem c hc', hlive⟩
      · rcases mem_cons.mp hc' with rfl | hc'
        · cases ha.symm.trans ha'
        · exact htold c' hc' a ha'
    | some a =>
      dsimp only
      have hshape := shape_eq_some ha
      generalize hd : (if (multiple && a.request.subject.isRelation) = true then
        a.resynchronize s.mailboxes commit.version else a.deliverCommit view s.mailboxes commit) = d
      have hdelivers : Delivers a s.mailboxes [commit.version]
          (a.revoked = false ∧ Tells view multiple a commit) d := by
        rw [← hd]
        split
        · exact ActiveSubscription.delivers_resynchronize a _ _
        · next hcompare =>
          exact (ActiveSubscription.delivers_deliverCommit view a _ commit).of_eq rfl rfl rfl
            fun h => ⟨h.1, h.2.resolve_left hcompare⟩
      have hkey : a.capability = c := hwhole.keyed c _ hshape
      have hreached : s.mailboxes.Reachable a.capability := by
        rw [hkey]
        exact hwhole.reached c _ hshape
      obtain ⟨here, hok⟩ := hdelivers.ok hreached
      obtain ⟨l, hl, hsub, hversions, -⟩ := hdelivers.tells
      have hrecord := frame_record hwhole ha hdelivers
      have htoldHere := fun hrevoked htells => hdelivers.told ⟨hrevoked, htells⟩ ⟨here, hok⟩
      obtain ⟨result, a', mailboxes'⟩ := d
      obtain rfl : result = .ok here := hok
      dsimp only at hrecord hl htoldHere ⊢
      have hversion : ∀ entry ∈ l, entry.message.cursor = commit.version := fun entry hentry =>
        mem_singleton.mp (hversions.subset (mem_map_of_mem hentry))
      obtain ⟨delivered, t, l', heq, hrest, hcursor, hl', hdistinct, hnew, htold⟩ :=
        deliverTo_spec view multiple commit candidates (s := s.record a' mailboxes')
          (hrecord.whole hwhole) hnodup fun entry hentry => by
            have hentry : entry ∈ mailboxes'.delivered := hentry
            rw [hl] at hentry
            exact (mem_append.mp hentry).elim (hbound entry) fun h => (hversion entry h).le
      rw [heq]
      refine ⟨here ++ delivered, t, l ++ l', rfl, hrecord.trans hrest, hcursor, ?_, ?_,
        fun entry hentry => ?_, fun c' hc' b hb htells => ?_⟩
      · rw [hl', ← append_assoc, ← hl]
        rfl
      · rw [map_append]
        refine nodup_append.mpr ⟨?_, hdistinct, ?_⟩
        · refine Nodup.of_map Prod.snd ?_
          rw [map_map]
          exact hversions.nodup (nodup_singleton _)
        -- the others are told of it too
        rintro _ hfirst _ hlater rfl
        obtain ⟨entry, hentry, rfl⟩ := mem_map.mp hfirst
        obtain ⟨other, hother, hsame⟩ := mem_map.mp hlater
        obtain ⟨-, c', hc', hother, -⟩ := hnew other hother
        have hsame := (congrArg Prod.fst hsame).symm.trans hother
        rw [MailboxEntry.address, hsub entry hentry, hkey] at hsame
        exact hc (Option.some.inj hsame ▸ hc')
      · rcases mem_append.mp hentry with hentry | hentry
        · exact ⟨hversion entry hentry, c, mem_cons_self, hkey ▸ hsub entry hentry,
            by rw [hshape]; exact nofun⟩
        · obtain ⟨hversion, c', hc', hother, hlive⟩ := hnew entry hentry
          exact ⟨hversion, c', mem_cons_of_mem c hc', hother, hrecord.shape c' ▸ hlive⟩
      · rcases mem_cons.mp hc' with rfl | hc'
        · obtain rfl := Option.some.inj (ha.symm.trans hb)
          refine MailboxStore.Told.mono ?_ hrest.delivered
          cases hrevoked : a.revoked with
          | false => exact hkey ▸ htoldHere hrevoked htells
          | true =>
            obtain ⟨cursor, hmem⟩ := hwhole.revoked c' a ha hrevoked
            exact ⟨_, hrecord.delivered hmem, rfl, .inr ⟨cursor, hbound _ hmem, rfl⟩⟩
        · refine htold c' hc' b ?_ htells
          have hne : c' ≠ a'.capability := by
            rw [show a'.capability = c from hdelivers.capability.trans hkey]
            exact fun heq => hc (heq ▸ hc')
          exact (get?_insert_of_ne hne).trans hb

/-- A commit may concern a subject: it changes the subject's relation, or the catalogue. -/
def Concerns (subject : SubscriptionSubject) (commit : SettledCommit) : Prop :=
  commit.catalogChanges ≠ [] ∨
    ∃ change ∈ commit.changes ++ commit.relationChanges, subject.relation? = some change.relation

theorem exists_of_matchingChanges_ne {changes : List FactChange} {relation : RelationId}
    {bindings : Bindings} (h : matchingChanges changes relation bindings ≠ ([], [])) :
    ∃ change ∈ changes, some relation = some change.relation := by
  by_contra hnone
  refine h ?_
  unfold matchingChanges
  rw [filter_eq_nil_iff.mpr fun change hchange hmatches => ?_]
  · rfl
  rw [Bool.and_eq_true, decide_eq_true_eq] at hmatches
  exact hnone ⟨change, hchange, congrArg some hmatches.1.symm⟩

variable {commit : SettledCommit}

theorem concerns_of_matches {subject : SubscriptionSubject}
    (h : subject.Matches commit) : Concerns subject commit := by
  cases subject with
  | catalogue => exact .inl h
  | facts id bindings =>
    obtain ⟨change, hchange, heq⟩ := exists_of_matchingChanges_ne h
    exact .inr ⟨change, mem_append_left _ hchange, heq⟩
  | relation id bindings =>
    obtain ⟨change, hchange, heq⟩ := exists_of_matchingChanges_ne h.2
    exact .inr ⟨change, mem_append_right _ hchange, heq⟩

theorem concerns_of_matches' {a : ActiveSubscription}
    (h : a.Matches view commit) : Concerns a.request.subject commit :=
  h.elim concerns_of_matches fun hrows => .inl hrows.2.1

theorem Whole.mem_candidates (h : s.Whole) {x : CapabilityId × SubscriptionRequest}
    (hx : s.shape c = some x) (hconcerns : Concerns x.2.subject commit) :
    c ∈ (s.store.candidatesForCommit commit).list := by
  unfold SubscriptionStore.candidatesForCommit
  rw [mem_list, mem_ofList, mem_append]
  rcases hconcerns with hcatalog | ⟨change, hchange, hrelation⟩
  · refine .inr ?_
    rw [if_pos hcatalog, mem_append, SortedMap.mem_keys]
    obtain ⟨a, ha, -⟩ := Option.map_eq_some_iff.mp hx
    exact .inr (Option.isSome_iff_exists.mpr ⟨a, ha⟩)
  · exact .inl (mem_flatMap.mpr ⟨change, hchange, h.indexed c x _ hx hrelation⟩)

/-- **What a dispatch puts in the queues**: of each commit one message for a subscription. -/
structure Handed (s : SubscriptionRuntime) (commits : List SettledCommit) (l : List MailboxEntry) :
    Prop where
  nodup : (l.map MailboxEntry.address).Nodup
  versions : ∀ entry ∈ l, ∃ commit ∈ commits, commit.version = entry.message.cursor
  live : ∀ entry ∈ l, ∃ c, entry.subscription = some c ∧ s.shape c ≠ none

theorem Handed.nil (s : SubscriptionRuntime) (commits : List SettledCommit) : Handed s commits [] :=
  ⟨nodup_nil, nofun, nofun⟩

theorem Handed.append {commits : List SettledCommit}
    {l m : List MailboxEntry} (hl : Handed s [commit] l) (hm : Handed s commits m)
    (hfresh : ∀ other ∈ commits, commit.version < other.version) :
    Handed s (commit :: commits) (l ++ m) := by
  refine ⟨?_, fun entry hentry => ?_,
    fun entry hentry => (mem_append.mp hentry).elim (hl.live entry) (hm.live entry)⟩
  · rw [map_append]
    refine nodup_append.mpr ⟨hl.nodup, hm.nodup, ?_⟩
    rintro _ hel _ hem rfl
    obtain ⟨entry, hentry, rfl⟩ := mem_map.mp hel
    obtain ⟨later, hlater, heq⟩ := mem_map.mp hem
    obtain ⟨first, hfirst, hv⟩ := hl.versions entry hentry
    obtain ⟨other, hother, hv'⟩ := hm.versions later hlater
    have hlt := hfresh other hother
    have hsame : later.message.cursor = entry.message.cursor := congrArg Prod.snd heq
    rw [mem_singleton.mp hfirst] at hv
    omega
  · rcases mem_append.mp hentry with hentry | hentry
    · obtain ⟨first, hfirst, hv⟩ := hl.versions entry hentry
      exact ⟨first, mem_cons.mpr (.inl (mem_singleton.mp hfirst)), hv⟩
    · obtain ⟨other, hother, hv⟩ := hm.versions entry hentry
      exact ⟨other, mem_cons_of_mem _ hother, hv⟩

theorem Frame.handed (h : Frame s t) {commits : List SettledCommit} {l : List MailboxEntry}
    (hl : Handed t commits l) : Handed s commits l :=
  ⟨hl.nodup, hl.versions, fun entry hentry => by
    obtain ⟨c, hc, hlive⟩ := hl.live entry hentry
    exact ⟨c, hc, h.shape c ▸ hlive⟩⟩

theorem frame_store {store : SubscriptionStore} (h : store.subscriptions = s.store.subscriptions)
    (h' : store.subscriptionsByRelation = s.store.subscriptionsByRelation) :
    Frame s { s with store } := by
  refine ⟨rfl, rfl, fun c => ?_, h', Subset.refl _, fun c a ha hrevoked => ?_⟩
  · unfold shape
    rw [h]
  · exact .inl ⟨a, h ▸ ha, hrevoked⟩

/-- Where the catalogue changes among several commits, subscriptions of a relation start over. -/
def StartsOver (multiple : Bool) (commits : List SettledCommit) : Prop :=
  multiple = true ∨ commits.length ≤ 1 ∨ ∀ commit ∈ commits, commit.catalogChanges = []

/-- **Commits are handed over one after the other**, and the cursor follows. -/
theorem deliverCommits_spec (view : Published) (order : HashOrder) (multiple : Bool) :
    ∀ (commits : List SettledCommit) {s : SubscriptionRuntime}, s.Whole →
      commits.Pairwise (fun c d => c.version < d.version) → StartsOver multiple commits →
      (∀ entry ∈ s.mailboxes.delivered, ∀ commit ∈ commits, entry.message.cursor ≤ commit.version) →
      ∃ delivered t l, deliverCommits view order multiple commits s = (.ok delivered, t) ∧
        Frame s t ∧ t.mailboxes.delivered = s.mailboxes.delivered ++ l ∧ Handed s commits l ∧
        t.store.dispatchedCursor =
          ((commits.getLast?.map fun commit => commit.version) <|> s.store.dispatchedCursor) ∧
        ∀ commit ∈ commits, ∀ c a, s.store.subscriptions.get? c = some a →
          Concerns a.request.subject commit → Tells view multiple a commit →
            t.mailboxes.Told c commit.version
  | [], s, _, _, _, _ =>
    ⟨[], s, [], rfl, Frame.refl s, (append_nil _).symm, Handed.nil s _, rfl, nofun⟩
  | commit :: commits, s, hwhole, hordered, hover, hbound => by
    obtain ⟨hfirst, hrest⟩ := pairwise_cons.mp hordered
    unfold deliverCommits
    dsimp only
    generalize hs : (if commit.catalogChanges ≠ [] then
      { s with store := s.store.refreshPolicyRelations view } else s) = s₁
    have hsame : Frame s s₁ ∧ s₁.mailboxes = s.mailboxes ∧
        s₁.store.subscriptions = s.store.subscriptions := by
      rw [← hs]
      split
      · exact ⟨frame_store rfl rfl, rfl, rfl⟩
      · exact ⟨Frame.refl s, rfl, rfl⟩
    obtain ⟨hframe₁, hmailboxes₁, hsubs₁⟩ := hsame
    have hwhole₁ := hframe₁.whole hwhole
    have hperm := order.2 (s₁.store.candidatesForCommit commit).list
    obtain ⟨here, t, l, heq, hframe, hcursor, hl, hdistinct, hnew, htold⟩ :=
      deliverTo_spec view multiple commit (order.1 (s₁.store.candidatesForCommit commit).list)
        hwhole₁ (hperm.nodup_iff.mpr ((SortedSet.sorted _).imp ne_of_lt)) fun entry hentry =>
          hbound entry (hmailboxes₁ ▸ hentry) commit mem_cons_self
    rw [heq]
    dsimp only
    have hframe₂ : Frame t { t with
        store := { t.store with dispatchedCursor := some commit.version } } := frame_store rfl rfl
    have hframe₃ := (hframe₁.trans hframe).trans hframe₂
    rw [hmailboxes₁] at hl
    have hover' : StartsOver multiple commits := hover.imp_right <| Or.imp
      (fun h => (Nat.le_succ _).trans h) fun h other hother => h other (mem_cons_of_mem _ hother)
    obtain ⟨more, u, m, heq', hframe', hm, hhanded, hcursor', htold'⟩ :=
      deliverCommits_spec view order multiple commits (hframe₃.whole hwhole) hrest hover'
        fun entry hentry other hother => by
          have hentry : entry ∈ t.mailboxes.delivered := hentry
          rw [hl] at hentry
          rcases mem_append.mp hentry with hentry | hentry
          · exact hbound entry hentry other (mem_cons_of_mem _ hother)
          · exact (hnew entry hentry).1.trans_le (hfirst other hother).le
    rw [heq']
    have hone : Handed s [commit] l := ⟨hdistinct, fun entry hentry =>
      ⟨commit, mem_cons_self, (hnew entry hentry).1.symm⟩, fun entry hentry => by
        obtain ⟨-, c, -, hc, hlive⟩ := hnew entry hentry
        exact ⟨c, hc, hframe₁.shape c ▸ hlive⟩⟩
    refine ⟨here ++ more, u, _ ++ m, rfl, hframe₃.trans hframe', ?_,
      hone.append (hframe₃.handed hhanded) hfirst, ?_, fun found hfound c a ha hconcerns htells => ?_⟩
    · rw [hm, ← append_assoc, ← hl]
    · rw [hcursor']
      cases commits with
      | nil => rfl
      | cons next commits =>
        rw [getLast?_cons_cons, getLast?_eq_getLast_of_ne_nil (cons_ne_nil _ _)]
        rfl
    have ha₁ : s₁.store.subscriptions.get? c = some a := hsubs₁ ▸ ha
    rcases mem_cons.mp hfound with rfl | hfound
    · refine MailboxStore.Told.mono ?_ hframe'.delivered
      exact htold c (hperm.mem_iff.mpr (hwhole₁.mem_candidates (shape_eq_some ha₁) hconcerns)) a ha₁
        htells
    -- the subscription has the same request when the later commits come
    obtain ⟨b, hb, hsame⟩ := Option.map_eq_some_iff.mp
      ((hframe₃.shape c).trans (shape_eq_some ha))
    have hrequest : b.request = a.request := congrArg Prod.snd hsame
    refine htold' found hfound c b hb (hrequest ▸ hconcerns) ?_
    unfold Tells ActiveSubscription.Matches at htells ⊢
    rw [hrequest]
    rcases htells with hover₁ | hmatches | ⟨hrelation, hcatalog, -⟩
    · exact .inl hover₁
    · exact .inr (.inl hmatches)
    · rcases hover with hmultiple | hlength | hnone
      · exact .inl (by rw [hmultiple, hrelation]; rfl)
      · rw [length_eq_zero_iff.mp (Nat.le_zero.mp (Nat.le_of_succ_le_succ hlength))] at hfound
        cases hfound
      · exact absurd (hnone found (mem_cons_of_mem _ hfound)) hcatalog

end SubscriptionRuntime

/-! ## The commits since the last boundary -/

namespace Published

variable {view : Published} {base cursor : ℕ}

/-- **The history has a commit for every version** after the one it starts from. -/
structure Consecutive (view : Published) (base : ℕ) : Prop where
  base_le : base ≤ view.version
  versions : view.commits.map (fun commit => commit.version) =
    List.range' (base + 1) (view.version - base)

theorem Consecutive.pairwise (h : view.Consecutive base) :
    view.commits.Pairwise fun c d => c.version < d.version := by
  have hrange : (view.commits.map fun commit => commit.version).Pairwise (· < ·) := by
    rw [h.versions]
    exact pairwise_lt_range'
  exact pairwise_map.mp hrange

theorem Consecutive.version_mem (h : view.Consecutive base) {version : ℕ} :
    (∃ commit ∈ view.commits, commit.version = version) ↔
      base < version ∧ version ≤ view.version := by
  have hmem : version ∈ view.commits.map (fun commit => commit.version) ↔
      base < version ∧ version ≤ view.version := by
    rw [h.versions, mem_range'_1]
    have := h.base_le
    omega
  rw [← hmem, mem_map]

/-- Going back from the newest commit finds all that are newer. -/
theorem reverse_takeWhile_reverse {version : ℕ} : ∀ {commits : List SettledCommit},
    commits.Pairwise (fun c d => c.version < d.version) →
    (commits.reverse.takeWhile fun commit => version < commit.version).reverse =
      commits.filter fun commit => version < commit.version
  | [], _ => rfl
  | commit :: commits, h => by
    obtain ⟨hfirst, hrest⟩ := pairwise_cons.mp h
    rw [reverse_cons]
    by_cases hnew : version < commit.version
    · have hall : ∀ other ∈ commits, version < other.version := fun other hother =>
        hnew.trans (hfirst other hother)
      rw [takeWhile_append_of_pos (by simpa using hall), filter_cons_of_pos (by simpa),
        filter_eq_self.mpr (by simpa using hall)]
      simp [hnew]
    rw [filter_cons_of_neg (by simpa using hnew), ← reverse_takeWhile_reverse hrest,
      takeWhile_append]
    split
    · next hfull =>
      have hself := (List.takeWhile_prefix _).eq_of_length hfull
      rw [hself]
      simp [hnew]
    · rfl

theorem Consecutive.commitsSince_eq (h : view.Consecutive base) :
    view.commitsSince cursor = view.commits.filter fun commit => cursor < commit.version :=
  reverse_takeWhile_reverse h.pairwise

theorem Consecutive.mem_commitsSince (h : view.Consecutive base) {commit : SettledCommit} :
    commit ∈ view.commitsSince cursor ↔ commit ∈ view.commits ∧ cursor < commit.version := by
  rw [h.commitsSince_eq, mem_filter, decide_eq_true_eq]

theorem Consecutive.pairwise_commitsSince (h : view.Consecutive base) (cursor : ℕ) :
    (view.commitsSince cursor).Pairwise fun c d => c.version < d.version := by
  rw [h.commitsSince_eq]
  exact h.pairwise.filter _

/-- The first commit since a cursor is the next one. -/
theorem Consecutive.head_commitsSince (h : view.Consecutive base) (hbase : base ≤ cursor)
    (hcursor : cursor < view.version) :
    ((view.commitsSince cursor).head?.map fun commit => commit.version) = some (cursor + 1) := by
  obtain ⟨next, hnext, hversion⟩ := h.version_mem.mpr ⟨Nat.lt_succ_of_le hbase, hcursor⟩
  have hmem : next ∈ view.commitsSince cursor := h.mem_commitsSince.mpr ⟨hnext, by omega⟩
  have hpairwise := h.pairwise_commitsSince cursor
  have hnew : ∀ commit ∈ view.commitsSince cursor, cursor < commit.version := fun commit hcommit =>
    (h.mem_commitsSince.mp hcommit).2
  cases hsince : view.commitsSince cursor with
  | nil =>
    rw [hsince] at hmem
    cases hmem
  | cons first rest =>
    rw [hsince] at hmem hpairwise hnew
    have hfirst := hnew first mem_cons_self
    rcases mem_cons.mp hmem with rfl | hmem
    · rw [head?_cons, Option.map_some, hversion]
    · have hlt := (pairwise_cons.mp hpairwise).1 next hmem
      omega

/-- The last commit since a cursor is the newest. -/
theorem Consecutive.getLast_commitsSince (h : view.Consecutive base) (hbase : base ≤ cursor)
    (hcursor : cursor < view.version) :
    ((view.commitsSince cursor).getLast?.map fun commit => commit.version) = some view.version := by
  obtain ⟨newest, hnewest, hversion⟩ := h.version_mem.mpr ⟨hbase.trans_lt hcursor, le_rfl⟩
  have hmem : newest ∈ view.commitsSince cursor := h.mem_commitsSince.mpr ⟨hnewest, by omega⟩
  have hpairwise := h.pairwise_commitsSince cursor
  have hold : ∀ commit ∈ view.commitsSince cursor, commit.version ≤ view.version :=
    fun commit hcommit => (h.version_mem.mp ⟨commit, (h.mem_commitsSince.mp hcommit).1, rfl⟩).2
  rcases eq_nil_or_concat (view.commitsSince cursor) with hsince | ⟨rest, last, hsince⟩
  · rw [hsince] at hmem
    cases hmem
  rw [hsince, concat_eq_append] at hmem hpairwise hold
  rw [hsince, concat_eq_append, getLast?_append_of_ne_nil _ (by simp)]
  have hlast := hold last (mem_append_right _ mem_cons_self)
  rcases mem_append.mp hmem with hmem | hmem
  · have hlt := (pairwise_append.mp hpairwise).2.2 newest hmem last mem_cons_self
    omega
  · rw [mem_singleton.mp hmem] at hversion
    simp [hversion]

end Published

namespace SubscriptionRuntime

variable {view : Published} {s : SubscriptionRuntime} {base : ℕ}

/-- Where the cursor stands: nowhere before the first boundary, and then not behind the history. -/
def CursorIn (s : SubscriptionRuntime) (view : Published) (base : ℕ) : Prop :=
  match s.store.dispatchedCursor with
  | none => ∀ c, s.shape c = none
  | some cursor => base ≤ cursor ∧ cursor ≤ view.version

theorem CursorIn.of_eq {t : SubscriptionRuntime} (h : s.CursorIn view base)
    (hcursor : t.store.dispatchedCursor = s.store.dispatchedCursor)
    (hshape : ∀ c, s.shape c = none → t.shape c = none) : t.CursorIn view base := by
  unfold CursorIn at h ⊢
  rw [hcursor]
  split at h
  · exact fun c => hshape c (h c)
  · exact h

/-- The commits that a boundary has to hand over. -/
def missed (s : SubscriptionRuntime) (view : Published) : List SettledCommit :=
  match s.store.dispatchedCursor with
  | none => []
  | some cursor => view.commitsSince cursor

/-- **A dispatch succeeds, tells of what was missed, and advances the cursor past every commit.** -/
theorem dispatchThrough_spec (hview : view.Consecutive base) (order : HashOrder) (hwhole : s.Whole)
    (hcursor : s.CursorIn view base)
    (hbound : ∀ entry ∈ s.mailboxes.delivered, ∃ cursor, s.store.dispatchedCursor = some cursor ∧
      entry.message.cursor ≤ cursor) :
    ∃ delivered t l, s.dispatchThrough view order = (.ok delivered, t) ∧ Frame s t ∧
      t.mailboxes.delivered = s.mailboxes.delivered ++ l ∧ Handed s (s.missed view) l ∧
      t.store.dispatchedCursor = some view.version ∧
      ∀ commit ∈ s.missed view, ∀ c a, s.store.subscriptions.get? c = some a →
        a.Matches view commit → t.mailboxes.Told c commit.version := by
  unfold dispatchThrough missed
  unfold CursorIn at hcursor
  rcases hat : s.store.dispatchedCursor with _ | cursor
  · exact ⟨[], _, [], rfl, frame_store rfl rfl, (append_nil _).symm, Handed.nil s _, rfl, nofun⟩
  rw [hat] at hcursor
  obtain ⟨hbase, hle⟩ := hcursor
  dsimp only
  by_cases hnone : view.version ≤ cursor
  · rw [if_pos hnone]
    have hempty : view.commitsSince cursor = [] := by
      refine eq_nil_iff_forall_not_mem.mpr fun commit hcommit => ?_
      obtain ⟨hmem, hnew⟩ := hview.mem_commitsSince.mp hcommit
      have hold := (hview.version_mem.mp ⟨commit, hmem, rfl⟩).2
      omega
    rw [hempty]
    exact ⟨[], s, [], rfl, Frame.refl s, (append_nil _).symm, Handed.nil s _,
      hat.trans (congrArg some (le_antisymm hle hnone)), nofun⟩
  · have hlt : cursor < view.version := not_le.mp hnone
    rw [if_neg hnone, if_neg (not_not.mpr (hview.head_commitsSince hbase hlt))]
    generalize hs : (if s.store.policyIndexInitialized = true then s
      else { s with store := s.store.refreshPolicyRelations view }) = s₁
    have hsame : Frame s s₁ ∧ s₁.mailboxes = s.mailboxes ∧
        s₁.store.subscriptions = s.store.subscriptions := by
      rw [← hs]
      split
      · exact ⟨Frame.refl s, rfl, rfl⟩
      · exact ⟨frame_store rfl rfl, rfl, rfl⟩
    obtain ⟨hframe₁, hmailboxes₁, hsubs₁⟩ := hsame
    generalize hmultiple : (decide (1 < (view.commitsSince cursor).length) &&
      (view.commitsSince cursor).any fun commit => decide (commit.catalogChanges ≠ [])) = multiple
    have hover : StartsOver multiple (view.commitsSince cursor) := by
      unfold StartsOver
      rw [← hmultiple]
      by_cases hlength : (view.commitsSince cursor).length ≤ 1
      · exact .inr (.inl hlength)
      by_cases hany : ∀ commit ∈ view.commitsSince cursor, commit.catalogChanges = []
      · exact .inr (.inr hany)
      · refine .inl ?_
        rw [not_le] at hlength
        simpa [hlength] using hany
    obtain ⟨delivered, t, l, heq, hframe, hl, hhanded, hlast, htold⟩ := deliverCommits_spec view order
      multiple (view.commitsSince cursor) (hframe₁.whole hwhole) (hview.pairwise_commitsSince cursor)
      hover fun entry hentry commit hcommit => by
        obtain ⟨cursor', hat', hle'⟩ := hbound entry (hmailboxes₁ ▸ hentry)
        obtain rfl := Option.some.inj (hat.symm.trans hat')
        exact hle'.trans (hview.mem_commitsSince.mp hcommit).2.le
    refine ⟨delivered, t, l, heq, hframe₁.trans hframe, hl.trans (by rw [hmailboxes₁]),
      hframe₁.handed hhanded, ?_, fun commit hcommit c a ha hmatches => ?_⟩
    · rw [hlast, hview.getLast_commitsSince hbase hlt]
      rfl
    · exact htold commit hcommit c a (hsubs₁ ▸ ha) (concerns_of_matches' hmatches) (.inr hmatches)

/-! ## Registrations and cancellations -/

variable {t : SubscriptionRuntime} {c : CapabilityId}

/-- What an operation does to the others: nothing. -/
structure Apart (s t : SubscriptionRuntime) (c : CapabilityId) : Prop where
  caps : ∀ c', c' ≠ c → t.mailboxes.caps.get? c' = s.mailboxes.caps.get? c'
  nextCapId : t.mailboxes.nextCapId = s.mailboxes.nextCapId
  numbered : s.mailboxes.Numbered → t.mailboxes.Numbered
  shape : ∀ c', c' ≠ c → t.shape c' = s.shape c'
  cursor : t.store.dispatchedCursor = s.store.dispatchedCursor

theorem mem_ofRelation_indexSubscription {store : SubscriptionStore} {subject : SubscriptionSubject}
    {c' : CapabilityId} {relation : RelationId} :
    c' ∈ (store.indexSubscription c subject).ofRelation relation ↔
      c' = c ∧ subject.relation? = some relation ∨ c' ∈ store.ofRelation relation := by
  unfold SubscriptionStore.indexSubscription SubscriptionStore.ofRelation
  rcases hrelation : subject.relation? with _ | found
  · simp
  dsimp only
  rw [get?_insert]
  by_cases heq : relation = found
  · rw [if_pos heq, Option.getD_some, mem_list, mem_insert, heq]
    simp [mem_list]
  · rw [if_neg heq]
    simp [Ne.symm heq]

/-- The parts of the store that the index does not touch. -/
theorem indexSubscription_frame (store : SubscriptionStore) (c : CapabilityId)
    (subject : SubscriptionSubject) :
    (store.indexSubscription c subject).subscriptions = store.subscriptions ∧
      (store.indexSubscription c subject).dispatchedCursor = store.dispatchedCursor := by
  unfold SubscriptionStore.indexSubscription
  split
  · exact ⟨rfl, rfl⟩
  · exact ⟨rfl, rfl⟩

theorem removeSubscriptionIndex_frame (store : SubscriptionStore) (c : CapabilityId)
    (subject : SubscriptionSubject) :
    (store.removeSubscriptionIndex c subject).subscriptions = store.subscriptions ∧
      (store.removeSubscriptionIndex c subject).dispatchedCursor = store.dispatchedCursor := by
  unfold SubscriptionStore.removeSubscriptionIndex
  split
  · exact ⟨rfl, rfl⟩
  · split
    · exact ⟨rfl, rfl⟩
    · exact ⟨rfl, rfl⟩

theorem mem_ofRelation_removeSubscriptionIndex {store : SubscriptionStore}
    {subject : SubscriptionSubject} {c' : CapabilityId} {relation : RelationId} (hne : c' ≠ c)
    (h : c' ∈ store.ofRelation relation) :
    c' ∈ (store.removeSubscriptionIndex c subject).ofRelation relation := by
  unfold SubscriptionStore.removeSubscriptionIndex
  split
  · exact h
  rename_i found _
  split
  · exact h
  rename_i set hset
  unfold SubscriptionStore.ofRelation at h ⊢
  dsimp only
  by_cases heq : relation = found
  · rw [heq, hset, Option.getD_some, mem_list] at h
    have hkept : c' ∈ set.erase c := mem_erase.mpr ⟨hne, h⟩
    rw [if_neg fun hempty => by
      rw [← mem_list, hempty] at hkept
      exact not_mem_nil hkept, heq, get?_insert_self]
    exact hkept
  · split
    · rwa [get?_erase, if_neg heq]
    · rwa [get?_insert_of_ne heq]

/-- **The delivery that comes with a registration**: messages up to the version, and of each commit
that a resumed subscription has missed one, or a marker that it has to start over. -/
structure Registers (view : Published) (a : ActiveSubscription) (mailboxes : MailboxStore)
    (d : Delivery) : Prop where
  delivers : ∃ versions, Delivers a mailboxes versions False d ∧ ∀ base, view.Consecutive base →
    versions.Nodup ∧ ∀ version ∈ versions, version ≤ view.version
  resumed : ∀ base, view.Consecutive base → (∃ delivered, d.1 = .ok delivered) →
    d.2.2.Resumes view a.capability a.request

section Registrations

variable {a : ActiveSubscription} {mailboxes : MailboxStore}

theorem registers_marker (kind : MarkerKind) (f : ActiveSubscription)
    (hf : f.capability = a.capability) (hrequest : f.request = a.request)
    (hrevoked : f.revoked = true → a.revoked = true ∨ kind = .revoked) :
    Registers view a mailboxes
      (match mailboxes.replaceSubscriptionMessage a.capability (.marker a.capability view.version kind)
        with
        | .error error => (.error error, a, mailboxes)
        | .ok (mailbox, mailboxes) => (.ok [mailbox], f, mailboxes)) := by
  refine ⟨⟨_, ActiveSubscription.delivers_replace _ f hf hrequest fun h => ?_, fun _ _ =>
    ⟨nodup_singleton _, fun version h => (mem_singleton.mp h).le⟩⟩,
    fun _ _ hok _ _ _ _ _ _ => .inr ⟨kind, ?_⟩⟩
  · exact (hrevoked h).imp_right fun hkind => by rw [hkind]; rfl
  · split at hok
    · obtain ⟨_, hok⟩ := hok
      cases hok
    · next hfound =>
      rw [(MailboxStore.replaceSubscriptionMessage_frame hfound).2.2]
      exact mem_append_right _ mem_cons_self

theorem registers_resynchronize : Registers view a mailboxes
    (a.resynchronize mailboxes view.version) :=
  registers_marker .resynchronize _ rfl rfl .inl

/-- The first delivery, to a subscription that may read what it asks for. -/
theorem registers_deliverInitial (hrevoked : a.revoked = false) :
    Registers view a mailboxes (a.deliverInitial view mailboxes) := by
  have hone : ∀ {d}, Delivers a mailboxes [view.version] False d → a.request.cursor = none →
      Registers view a mailboxes d := fun hd hnone =>
    ⟨⟨_, hd, fun _ _ => ⟨nodup_singleton _, fun _ h => (mem_singleton.mp h).le⟩⟩,
      fun _ _ _ _ hsome => by
      rw [hnone] at hsome
      cases hsome⟩
  unfold ActiveSubscription.deliverInitial
  rcases hcursor : a.request.cursor with _ | cursor
  · dsimp only
    split
    · exact hone (Delivers.none rfl rfl rfl id) hcursor
    · split
      · exact hone (ActiveSubscription.delivers_enqueue a _ (.catalogueSnapshot _ _ _) _) hcursor
      · exact hone (ActiveSubscription.delivers_enqueue a _ (.changes _ _ _ _ _) _) hcursor
  dsimp only
  split
  · exact registers_resynchronize
  split
  · exact registers_resynchronize
  split
  · exact registers_resynchronize
  have hmissed := ActiveSubscription.delivers_deliverMissed view (view.commitsSince cursor) a mailboxes
  have hversions : ∀ base, view.Consecutive base →
      ((view.commitsSince cursor).map fun commit => commit.version).Nodup ∧
      ∀ version ∈ (view.commitsSince cursor).map fun commit => commit.version,
        version ≤ view.version := by
    intro base hview
    refine ⟨pairwise_map.mpr ((hview.pairwise_commitsSince cursor).imp ne_of_lt), fun version h => ?_⟩
    obtain ⟨commit, hcommit, rfl⟩ := mem_map.mp h
    exact (hview.version_mem.mp ⟨commit, (hview.mem_commitsSince.mp hcommit).1, rfl⟩).2
  have htold := fun hordered => @ActiveSubscription.told_deliverMissed view (view.commitsSince cursor)
    a mailboxes hordered (by rw [hrevoked]; exact nofun)
  split
  · next hd =>
    rw [hd] at hmissed
    refine ⟨⟨_, hmissed, hversions⟩, fun _ _ hok => ?_⟩
    obtain ⟨_, hok⟩ := hok
    cases hok
  · next hd =>
    rw [hd] at hmissed htold
    refine ⟨⟨_, ⟨hmissed.caps, hmissed.nextCapId, hmissed.capability, hmissed.request,
      fun _ => ⟨_, rfl⟩, hmissed.tells.imp fun _ h => ⟨h.1, h.2.1, h.2.2.1, False.elim⟩,
      hmissed.revoked⟩, hversions⟩,
      fun base hview _ cursor' hsome commit hcommit hnew hmatches => .inl ?_⟩
    obtain rfl := Option.some.inj (hcursor.symm.trans hsome)
    exact htold (hview.pairwise_commitsSince cursor) ⟨_, rfl⟩ commit
      (hview.mem_commitsSince.mpr ⟨hcommit, hnew⟩) hmatches

theorem delivers_register (view : Published) (s : SubscriptionRuntime)
    (hrevoked : a.revoked = false) : ∃ d, Registers view a s.mailboxes d ∧ s.register view a =
      match d with
      | (.error error, _, mailboxes) => (.error error, { s with mailboxes })
      | (.ok delivered, a, mailboxes) =>
        (.ok delivered, { s.record a mailboxes with
          store := (s.record a mailboxes).store.indexSubscription a.capability
            a.request.subject }) := by
  unfold register
  dsimp only
  refine ⟨_, ?_, rfl⟩
  split
  · exact registers_marker .revoked _ rfl rfl fun _ => .inr rfl
  · split
    · exact registers_resynchronize
    · next baseline _ =>
      have hinitial : Registers view { a with baseline } s.mailboxes _ :=
        registers_deliverInitial hrevoked
      obtain ⟨⟨versions, hd, hversions⟩, hresumed⟩ := hinitial
      exact ⟨⟨versions, hd.of_eq rfl rfl rfl id, hversions⟩, hresumed⟩

end Registrations

/-- **A registration succeeds where the subscription can be reached**, and leaves the others alone. -/
theorem register_spec {base : ℕ} (hview : view.Consecutive base) (hwhole : s.Whole)
    {a : ActiveSubscription} (hreach : s.mailboxes.Reachable a.capability)
    (hrevoked : a.revoked = false) :
    ∃ delivered t l, s.register view a = (.ok delivered, t) ∧ t.Whole ∧ Apart s t a.capability ∧
      t.mailboxes.delivered = s.mailboxes.delivered ++ l ∧ (l.map MailboxEntry.address).Nodup ∧
      (∀ entry ∈ l, entry.message.cursor ≤ view.version ∧ entry.subscription = some a.capability) ∧
      t.mailboxes.Resumes view a.capability a.request := by
  obtain ⟨d, ⟨⟨versions, hd, hversions⟩, hresumed⟩, heq⟩ := delivers_register view s hrevoked
  obtain ⟨hnodup, hle⟩ := hversions base hview
  obtain ⟨delivered, hok⟩ := hd.ok hreach
  have hresumed := hresumed base hview ⟨delivered, hok⟩
  have hsubset := hd.subset
  obtain ⟨result, a', mailboxes⟩ := d
  obtain rfl : result = .ok delivered := hok
  obtain ⟨hcaps, hnext, hcapability, hrequest, -, ⟨l, hl, hsub, hcursors, -⟩, htold⟩ := hd
  dsimp only at hcaps hnext hcapability hrequest heq hl hresumed htold hsubset
  obtain ⟨hsubs, hcursor⟩ := indexSubscription_frame (s.record a' mailboxes).store a'.capability
    a'.request.subject
  have hstored : ∀ c', ((s.record a' mailboxes).store.indexSubscription a'.capability
      a'.request.subject).subscriptions.get? c' =
        (s.store.subscriptions.insert a.capability a').get? c' := fun c' => by
    rw [hsubs, record, hcapability]
  have hshape : ∀ c', SubscriptionRuntime.shape { s.record a' mailboxes with
      store := (s.record a' mailboxes).store.indexSubscription a'.capability a'.request.subject } c' =
      if c' = a.capability then some (a.capability, a.request) else s.shape c' := by
    intro c'
    unfold shape
    dsimp only
    rw [hstored, get?_insert]
    split
    · rw [Option.map_some, hcapability, hrequest]
    · rfl
  refine ⟨delivered, _, l, heq, ⟨fun c' x hx => ?_, fun c' x hx => ?_,
    fun c' x relation hx hrelation => ?_, fun c' b hb hrev => ?_⟩, ⟨fun c' _ => ?_, hnext,
      fun hnumbered => ?_, fun c' hc => ?_, hcursor⟩, hl, ?_,
    fun entry hentry => ⟨?_, hsub entry hentry⟩, hresumed⟩
  · rw [hshape] at hx
    split at hx
    · next hc => rw [← Option.some.inj hx, hc]
    · exact hwhole.keyed c' x hx
  · rw [hshape] at hx
    unfold MailboxStore.Reachable
    dsimp only [record]
    rw [hcaps]
    split at hx
    · next hc => exact hc ▸ hreach
    · exact hwhole.reached c' x hx
  · rw [hshape] at hx
    refine mem_ofRelation_indexSubscription.mpr ?_
    split at hx
    · next hc =>
      obtain rfl := Option.some.inj hx
      exact .inl ⟨hc.trans hcapability.symm, hrequest ▸ hrelation⟩
    · exact .inr (hwhole.indexed c' x relation hx hrelation)
  · dsimp only at hb
    rw [hstored, get?_insert] at hb
    split at hb
    · next hc =>
      obtain rfl := Option.some.inj hb
      rcases htold hrev with hold | ⟨cursor, -, hmem⟩
      · rw [hrevoked] at hold
        cases hold
      · exact ⟨cursor, hc ▸ hmem⟩
    · exact (hwhole.revoked c' b hb hrev).imp fun _ hmem => hsubset hmem
  · dsimp only [record]
    rw [hcaps]
  · unfold MailboxStore.Numbered
    dsimp only [record]
    rwa [hcaps, hnext]
  · exact (hshape c').trans (if_neg hc)
  · refine Nodup.of_map Prod.snd ?_
    rw [map_map]
    exact hcursors.nodup hnodup
  · exact hle _ (hcursors.subset (mem_map_of_mem hentry))

theorem get?_remove (s : SubscriptionRuntime) (c c' : CapabilityId) :
    (s.remove c).store.subscriptions.get? c' =
      if c' = c then none else s.store.subscriptions.get? c' := by
  unfold remove
  dsimp only
  cases ha : s.store.subscriptions.get? c with
  | none =>
    dsimp only
    split
    · next hc => rw [hc, ha]
    · rfl
  | some a =>
    dsimp only
    rw [(removeSubscriptionIndex_frame _ c a.request.subject).1, get?_erase]
    by_cases hc : c' = c
    · rw [if_pos hc, if_pos hc]
    · rw [if_neg hc, if_neg hc]

/-- **A cancellation takes out one subscription.** -/
theorem remove_spec (hwhole : s.Whole) (c : CapabilityId) :
    (s.remove c).Whole ∧ Apart s (s.remove c) c ∧ (s.remove c).shape c = none ∧
      (s.remove c).mailboxes.delivered = s.mailboxes.delivered := by
  have hcaps : ∀ c', c' ≠ c → (s.remove c).mailboxes.caps.get? c' = s.mailboxes.caps.get? c' :=
    fun c' hc => MailboxStore.get?_releaseSubscription_of_ne hc
  have hnext : (s.remove c).mailboxes.nextCapId = s.mailboxes.nextCapId := by
    unfold remove MailboxStore.releaseSubscription
    dsimp only
    split
    · rfl
    · rfl
  have hdelivered : (s.remove c).mailboxes.delivered = s.mailboxes.delivered := by
    unfold remove MailboxStore.releaseSubscription
    dsimp only
    split
    · rfl
    · rfl
  have hshape : ∀ c', (s.remove c).shape c' = if c' = c then none else s.shape c' := by
    intro c'
    unfold shape
    rw [get?_remove]
    split
    · rfl
    · rfl
  have hcursor : (s.remove c).store.dispatchedCursor = s.store.dispatchedCursor := by
    unfold remove
    dsimp only
    split
    · rfl
    · exact (removeSubscriptionIndex_frame _ c _).2
  have hindex : ∀ c' relation, c' ≠ c → c' ∈ s.store.ofRelation relation →
      c' ∈ (s.remove c).store.ofRelation relation := by
    intro c' relation hne hmem
    unfold remove
    dsimp only
    split
    · exact hmem
    · exact mem_ofRelation_removeSubscriptionIndex hne hmem
  refine ⟨⟨fun c' x hx => ?_, fun c' x hx => ?_, fun c' x relation hx hrelation => ?_,
      fun c' a ha hrevoked => ?_⟩,
    ⟨hcaps, hnext, fun hnumbered => hnumbered.releaseSubscription c,
      fun c' hc => (hshape c').trans (if_neg hc), hcursor⟩,
    (hshape c).trans (if_pos rfl), hdelivered⟩
  · rw [hshape] at hx
    split at hx
    · cases hx
    exact hwhole.keyed c' x hx
  · rw [hshape] at hx
    split at hx
    · cases hx
    rename_i hc
    obtain ⟨mailbox, hcap⟩ := hwhole.reached c' x hx
    exact ⟨mailbox, (hcaps c' hc).trans hcap⟩
  · rw [hshape] at hx
    split at hx
    · cases hx
    rename_i hc
    exact hindex c' relation hc (hwhole.indexed c' x relation hx hrelation)
  · rw [get?_remove] at ha
    split at ha
    · cases ha
    unfold MailboxStore.ToldRevoked
    rw [hdelivered]
    exact hwhole.revoked c' a ha hrevoked

end SubscriptionRuntime

/-- No operation on a subscription comes before its registration. -/
def InOrder : List SubscriptionOperation → Prop
  | [] => True
  | operation :: operations => operation.capability ∉ registered operations ∧ InOrder operations

namespace SubscriptionRuntime

/-- What the operations of a boundary register can be reached and is not registered yet. -/
def Ready (s : SubscriptionRuntime) (operations : List SubscriptionOperation) : Prop :=
  ∀ c ∈ registered operations, s.mailboxes.Reachable c ∧ s.shape c = none

theorem Apart.ready {c : CapabilityId} {operations : List SubscriptionOperation} (h : Apart s t c)
    (hc : c ∉ registered operations) (hready : s.Ready operations) : t.Ready operations := by
  intro c' hc'
  have hne : c' ≠ c := fun heq => hc (heq ▸ hc')
  obtain ⟨⟨mailbox, hcap⟩, hshape⟩ := hready c' hc'
  exact ⟨⟨mailbox, (h.caps c' hne).trans hcap⟩, (h.shape c' hne).trans hshape⟩

/-- What the operations of a boundary leave alone, and that the rest was registered by them and told of
what it has missed. -/
structure Applied (view : Published) (operations : List SubscriptionOperation)
    (s t : SubscriptionRuntime) : Prop where
  whole : t.Whole
  caps : ∀ c, (∀ operation ∈ operations, operation.capability ≠ c) →
    t.mailboxes.caps.get? c = s.mailboxes.caps.get? c
  nextCapId : t.mailboxes.nextCapId = s.mailboxes.nextCapId
  numbered : s.mailboxes.Numbered → t.mailboxes.Numbered
  shape : ∀ c, (∀ operation ∈ operations, operation.capability ≠ c) → t.shape c = s.shape c
  cursor : t.store.dispatchedCursor = s.store.dispatchedCursor
  delivered : ∃ l, t.mailboxes.delivered = s.mailboxes.delivered ++ l ∧
    (l.map MailboxEntry.address).Nodup ∧ ∀ entry ∈ l, entry.message.cursor ≤ view.version ∧
      ∃ c ∈ registered operations, entry.subscription = some c
  resumed : ∀ c request context root, .register c request context root ∈ operations →
    t.mailboxes.Resumes view c request

/-- **The operations of a boundary all succeed.** -/
theorem applyOperations_spec {base : ℕ} (hview : view.Consecutive base) :
    ∀ (operations : List SubscriptionOperation) {s : SubscriptionRuntime}, s.Whole →
    s.Ready operations → InOrder operations →
    ∃ delivered t, applyOperations view operations s = (.ok delivered, t) ∧
      Applied view operations s t
  | [], s, hwhole, _, _ =>
    ⟨[], s, rfl, hwhole, fun _ _ => rfl, rfl, id, fun _ _ => rfl, rfl,
      ⟨[], (append_nil _).symm, nodup_nil, nofun⟩, nofun⟩
  | .register c request context root :: operations, s, hwhole, hready, horder => by
    obtain ⟨hreach, -⟩ := hready c mem_cons_self
    obtain ⟨here, t, l, heq, hwhole', hapart, hl, hdistinct, hnew, hresumes⟩ :=
      register_spec hview hwhole
        (a := ⟨c, request, context, root, SortedSet.empty, false, false⟩) hreach rfl
    obtain ⟨more, u, heq', hrest⟩ := applyOperations_spec hview operations hwhole'
      (hapart.ready horder.1 fun c' hc' => hready c' (mem_cons_of_mem _ hc')) horder.2
    obtain ⟨l', hl', hdistinct', hnew'⟩ := hrest.delivered
    refine ⟨here ++ more, u, by rw [applyOperations, heq]; dsimp only; rw [heq'], hrest.whole,
      fun c' hc' => ?_, hrest.nextCapId.trans hapart.nextCapId,
      fun hnumbered => hrest.numbered (hapart.numbered hnumbered), fun c' hc' => ?_,
      hrest.cursor.trans hapart.cursor, ⟨l ++ l', ?_, ?_, fun entry hentry => ?_⟩,
      fun c' request' context' root' hmem => ?_⟩
    · have hne := hc' _ mem_cons_self
      exact (hrest.caps c' fun o ho => hc' o (mem_cons_of_mem _ ho)).trans
        (hapart.caps c' hne.symm)
    · have hne := hc' _ mem_cons_self
      exact (hrest.shape c' fun o ho => hc' o (mem_cons_of_mem _ ho)).trans
        (hapart.shape c' hne.symm)
    · rw [hl', hl, append_assoc]
    · rw [map_append]
      refine nodup_append.mpr ⟨hdistinct, hdistinct', ?_⟩
      rintro _ hfirst _ hlater rfl
      obtain ⟨entry, hentry, rfl⟩ := mem_map.mp hfirst
      obtain ⟨other, hother, hsame⟩ := mem_map.mp hlater
      obtain ⟨-, c', hc', hsub⟩ := hnew' other hother
      have hsame : some c' = some c :=
        (hsub.symm.trans (congrArg Prod.fst hsame)).trans (hnew entry hentry).2
      exact horder.1 (Option.some.inj hsame ▸ hc')
    · rcases mem_append.mp hentry with hentry | hentry
      · exact ⟨(hnew entry hentry).1, c, mem_cons_self, (hnew entry hentry).2⟩
      · exact (hnew' entry hentry).imp_right fun ⟨c', hc', hsub⟩ => ⟨c', mem_cons_of_mem c hc', hsub⟩
    · rcases mem_cons.mp hmem with heq | hmem
      · obtain ⟨rfl, rfl, -⟩ := SubscriptionOperation.register.inj heq
        exact hresumes.mono (hl' ▸ subset_append_left _ _)
      · exact hrest.resumed c' request' context' root' hmem
  | .cancel c :: operations, s, hwhole, hready, horder => by
    obtain ⟨hwhole', hapart, -, hdelivered⟩ := remove_spec hwhole c
    obtain ⟨more, u, heq', hrest⟩ := applyOperations_spec hview operations hwhole'
      (hapart.ready horder.1 fun c' hc' => hready c' hc') horder.2
    refine ⟨more, u, heq', hrest.whole, fun c' hc' => ?_, hrest.nextCapId.trans hapart.nextCapId,
      fun hnumbered => hrest.numbered (hapart.numbered hnumbered), fun c' hc' => ?_,
      hrest.cursor.trans hapart.cursor, hdelivered ▸ hrest.delivered,
      fun c' request context root hmem => hrest.resumed c' request context root
        ((mem_cons.mp hmem).resolve_left nofun)⟩
    · have hne := hc' _ mem_cons_self
      exact (hrest.caps c' fun o ho => hc' o (mem_cons_of_mem _ ho)).trans
        (hapart.caps c' hne.symm)
    · have hne := hc' _ mem_cons_self
      exact (hrest.shape c' fun o ho => hc' o (mem_cons_of_mem _ ho)).trans
        (hapart.shape c' hne.symm)

end SubscriptionRuntime

end Mica
