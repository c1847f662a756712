import Mica.Runtime.Task

/-!
# Runtime/Retry — what a retried attempt finds

* `Execution.retry_clean_iff` — a retry restores the state of the last successful boundary if and only
  if no capability was minted since: the authority of the task is the one thing it does not restore.
* `Execution.grant_survives` — a right that the failed attempt was given, used by the next one.
-/

open SortedList List

namespace Mica

namespace Task

variable {σ : Type} {r : Return σ} {t : Task σ} {shared : SubscriptionRuntime}

/-! ## What holds between boundaries -/

/-- **A task is as its history says.**  A task without a transaction is not run again. -/
structure Sound (t : Task σ) : Prop where
  vm : t.tx ≠ none → t.retryState = t.history.boundaryVm
  kept : t.history.minted = [] → t.authority = t.history.boundaryAuthority
  marked : t.history.minted ≠ [] → t.history.boundaryAuthority.nextId < t.authority.nextId
  allocated : t.tx ≠ none → ∀ c ∈ t.history.allocated, c ∈ registered t.pendingSubscriptions

theorem Sound.of_eq {t' : Task σ} (h : t.Sound) (htx : t'.tx ≠ none → t.tx ≠ none)
    (hretry : t'.retryState = t.retryState) (hauthority : t'.authority = t.authority)
    (hvm : t'.history.boundaryVm = t.history.boundaryVm)
    (hboundary : t'.history.boundaryAuthority = t.history.boundaryAuthority)
    (hminted : t'.history.minted = t.history.minted)
    (hallocated : t'.tx ≠ none → ∀ c ∈ t'.history.allocated, c ∈ registered t'.pendingSubscriptions) :
    t'.Sound where
  vm hsome := by rw [hretry, hvm, h.vm (htx hsome)]
  kept hnone := by rw [hauthority, hboundary, h.kept (hminted ▸ hnone)]
  marked hsome := by
    rw [hauthority, hboundary]
    exact h.marked (hminted ▸ hsome)
  allocated := hallocated

theorem sound_newWithAuthority (vm : σ) (authority : AuthorityContext) (context : RuntimeContext)
    (limits : TaskLimits) (version : ℕ) :
    (newWithAuthority vm authority context limits version).Sound :=
  ⟨fun _ => rfl, fun _ => rfl, fun h => absurd rfl h, nofun⟩

theorem sound_resumed (state : TaskState σ) (vm : σ) (authority : AuthorityContext)
    (context : RuntimeContext) (version : ℕ) : (resumed state vm authority context version).Sound :=
  ⟨fun _ => rfl, fun _ => rfl, fun h => absurd rfl h, nofun⟩

/-- Minting moves the authority away from that of the boundary. -/
theorem Sound.nextId_le (h : t.Sound) :
    t.history.boundaryAuthority.nextId ≤ t.authority.nextId := by
  by_cases hminted : t.history.minted = []
  · rw [h.kept hminted]
  · exact (h.marked hminted).le

/-- What the host does for a program keeps to the history. -/
theorem Sound.host (h : t.Sound) (shared : SubscriptionRuntime) (call : HostCall) :
    (t.host shared call).1.Sound := by
  unfold Task.host
  split
  · exact h
  rename_i tx htx
  have hsome : t.tx ≠ none := by
    rw [htx]
    exact nofun
  cases call with
  | write change =>
    exact h.of_eq (fun _ => hsome) rfl rfl rfl rfl rfl fun _ => h.allocated hsome
  | writeBuffer pending =>
    exact h.of_eq (fun _ => hsome) rfl rfl rfl rfl rfl fun _ => h.allocated hsome
  | emit target value =>
    dsimp only
    split
    · exact h.of_eq (fun _ => hsome) rfl rfl rfl rfl rfl fun _ => h.allocated hsome
    · exact h
  | sendMailbox sender value =>
    dsimp only
    split
    · exact h
    · exact h.of_eq (fun _ => hsome) rfl rfl rfl rfl rfl fun _ => h.allocated hsome
  | createMailbox => exact h.of_eq (fun _ => hsome) rfl rfl rfl rfl rfl fun _ => h.allocated hsome
  | closeMailbox receiver =>
    dsimp only
    split
    · exact h
    · exact h.of_eq (fun _ => hsome) rfl rfl rfl rfl rfl fun _ => h.allocated hsome
  | subscribeChanges request =>
    dsimp only
    split
    · exact h
    rename_i operation mailboxes hoperation
    refine h.of_eq (fun _ => hsome) rfl rfl rfl rfl rfl fun _ c hc => ?_
    dsimp only [accept] at hc ⊢
    rw [registered_append, mem_append]
    rcases mem_append.mp hc with hc | hc
    · exact .inl (h.allocated hsome c hc)
    · rw [mem_singleton.mp hc]
      exact .inr (mem_filterMap.mpr
        ⟨operation, mem_cons_self, registered?_of_subscribeChanges hoperation⟩)
  | cancelSubscription subscription =>
    dsimp only
    split
    · exact h
    · refine h.of_eq (fun _ => hsome) rfl rfl rfl rfl rfl fun _ c hc => ?_
      dsimp only [accept] at hc ⊢
      rw [registered_append, mem_append]
      exact .inl (h.allocated hsome c hc)
  | mintCapability grant =>
    refine ⟨fun _ => h.vm hsome, fun hnone => ?_, fun _ => ?_, fun _ => h.allocated hsome⟩
    · exact absurd hnone (append_ne_nil_of_right_ne_nil _ (cons_ne_nil _ _))
    · exact h.nextId_le.trans_lt (t.authority.nextId_lt_mint grant)

/-! ## A boundary, and a retry -/

theorem Sound.boundary {disposition : BoundaryDisposition} {wrote : Bool}
    {result : Except TaskError BoundaryResult} {t' : Task σ} {shared' : SubscriptionRuntime}
    (h : t.Sound) (hvm : t.retryState = t.history.boundaryVm)
    (hboundary : Boundary r disposition wrote t shared (result, t', shared')) (htx : t.tx = none) :
    t'.Sound := by
  cases hboundary with
  | refused _ error left =>
    exact h.of_eq (fun hsome => absurd htx hsome) rfl rfl rfl rfl rfl fun hsome => absurd htx hsome
  | committed left =>
    cases disposition with
    | «continue» => exact ⟨fun _ => rfl, fun _ => rfl, fun hne => absurd rfl hne, fun _ => nofun⟩
    | finish =>
      exact ⟨fun hsome => absurd htx hsome, fun _ => rfl, fun hne => absurd rfl hne, fun _ => nofun⟩
  | handOverFailed _ _ error left =>
    exact h.of_eq (fun hsome => absurd htx hsome) rfl rfl rfl rfl rfl fun hsome => absurd htx hsome
  | retried => exact ⟨fun _ => hvm, h.kept, h.marked, fun _ => nofun⟩
  | exhausted _ => exact h
  | failed _ error => exact ⟨fun _ => hvm, h.kept, h.marked, fun _ => nofun⟩

theorem Sound.moved (h : t.Sound) (vm : σ) : ({ t with vm } : Task σ).Sound :=
  h.of_eq id rfl rfl rfl rfl rfl h.allocated

theorem Sound.taken (h : t.Sound) (vm : σ) : ({ t with vm, tx := none } : Task σ).Sound :=
  h.of_eq (fun hsome => absurd rfl hsome) rfl rfl rfl rfl rfl fun hsome => absurd rfl hsome

theorem Sound.respond (h : t.Sound) (r : Return σ) (shared : SubscriptionRuntime) :
    (t.respond r shared).2.1.Sound := by
  by_cases htx : t.tx = none
  · unfold Task.respond
    rwa [htx]
  have hspec := respond_spec r t shared
  generalize t.respond r shared = result at hspec
  cases hspec with
  | missing _ => exact h
  | raised _ error => exact h.moved r.vm
  | continued => exact h.moved r.vm
  | passed _ hboundary => exact (h.taken r.vm).boundary (h.vm htx) hboundary rfl
  | ended _ _ hboundary =>
    have hdone := (h.taken r.vm).boundary (h.vm htx) hboundary rfl
    exact hdone.of_eq id rfl rfl rfl rfl rfl hdone.allocated
  | failed _ _ hboundary => exact (h.taken r.vm).boundary (h.vm htx) hboundary rfl
  | aborted error =>
    exact h.of_eq (fun hsome => absurd rfl hsome) rfl rfl rfl rfl rfl fun hsome => absurd rfl hsome
  | rolledBack => exact ⟨fun _ => h.vm htx, h.kept, h.marked, fun _ => nofun⟩
  | exhausted _ => exact h.moved r.vm

/-- A boundary that does not retry leaves the count of retries. -/
theorem Boundary.retries {disposition : BoundaryDisposition} {wrote : Bool}
    {result : Except TaskError BoundaryResult} {t' : Task σ} {shared' : SubscriptionRuntime}
    (h : Boundary r disposition wrote t shared (result, t', shared')) :
    t'.retries = t.retries ∨
      result = .ok .retried ∧ t' = t.retried r ∧ shared' = t.released shared := by
  cases h with
  | refused _ error left => exact .inl rfl
  | committed left =>
    cases disposition with
    | «continue» => exact .inl rfl
    | finish => exact .inl rfl
  | handOverFailed _ _ error left => exact .inl rfl
  | retried => exact .inr ⟨rfl, rfl, rfl⟩
  | exhausted _ => exact .inl rfl
  | failed _ error => exact .inl rfl

/-- **A task that retries starts again from its last boundary.** -/
theorem respond_of_retries (h : t.retries < (t.respond r shared).2.1.retries) :
    t.tx ≠ none ∧ (t.respond r shared).2 = (t.retried r, t.released shared) := by
  refine ⟨fun htx => ?_, ?_⟩
  · unfold respond at h
    rw [htx] at h
    exact absurd h (lt_irrefl _)
  have hspec := respond_spec r t shared
  generalize t.respond r shared = result at h hspec
  cases hspec with
  | missing _ => exact absurd h (lt_irrefl _)
  | raised _ error => exact absurd h (lt_irrefl _)
  | continued => exact absurd h (lt_irrefl _)
  | passed _ hboundary =>
    rcases hboundary.retries with hsame | ⟨-, rfl, rfl⟩
    · exact absurd h (hsame ▸ lt_irrefl _)
    · rfl
  | ended _ _ hboundary =>
    rcases hboundary.retries with hsame | ⟨hretried, -, -⟩
    · exact absurd h (hsame ▸ lt_irrefl _)
    · cases hretried
  | failed _ _ hboundary =>
    rcases hboundary.retries with hsame | ⟨-, rfl, rfl⟩
    · exact absurd h (hsame ▸ lt_irrefl _)
    · rfl
  | aborted error => exact absurd h (lt_irrefl _)
  | rolledBack => rfl
  | exhausted _ => exact absurd h (lt_irrefl _)

end Task

/-! ## Whole runs -/

/-- A task and what it shares with the others. -/
structure Execution (σ : Type) where
  task : Task σ
  shared : SubscriptionRuntime

inductive ExecutionAction (σ : Type) where
  | call (call : HostCall)
  /-- Other tasks change what is shared. -/
  | others (shared : SubscriptionRuntime)
  | respond (r : Task.Return σ)

namespace Execution

variable {σ : Type} {e : Execution σ}

def step (e : Execution σ) : ExecutionAction σ → Execution σ
  | .call call => ⟨(e.task.host e.shared call).1, (e.task.host e.shared call).2⟩
  | .others shared => { e with shared }
  | .respond r => ⟨(e.task.respond r e.shared).2.1, (e.task.respond r e.shared).2.2⟩

def run (e : Execution σ) (as : List (ExecutionAction σ)) : Execution σ := as.foldl step e

/-- A task as the task manager makes it: from a program, or from one that was suspended. -/
inductive Started : Task σ → Prop
  | submitted (vm : σ) (authority : AuthorityContext) (context : RuntimeContext) (limits : TaskLimits)
      (version : ℕ) : Started (.newWithAuthority vm authority context limits version)
  | resumed (state : TaskState σ) (vm : σ) (authority : AuthorityContext) (context : RuntimeContext)
      (version : ℕ) : Started (.resumed state vm authority context version)

/-- The response makes the task retry. -/
def Retries (e : Execution σ) (r : Task.Return σ) : Prop :=
  e.task.retries < (e.step (.respond r)).task.retries

instance (e : Execution σ) (r : Task.Return σ) : Decidable (e.Retries r) :=
  inferInstanceAs (Decidable (_ < _))

/-- **The program is run again from the last successful boundary**, on a fresh transaction, and nothing
of the attempt that failed is left. -/
structure Clean (e : Execution σ) (r : Task.Return σ) : Prop where
  vm : (e.step (.respond r)).task.vm = e.task.history.boundaryVm
  authority : (e.step (.respond r)).task.authority = e.task.history.boundaryAuthority
  effects : (e.step (.respond r)).task.pendingEffects = []
  sends : (e.step (.respond r)).task.pendingMailboxSends = []
  subscriptions : (e.step (.respond r)).task.pendingSubscriptions = []
  released : ∀ c ∈ e.task.history.allocated, ∀ mailbox,
    (e.step (.respond r)).shared.mailboxes.caps.get? c ≠ some (.subscription mailbox)
  tx : (e.step (.respond r)).task.tx = some (.begin r.next)

theorem Started.sound {t : Task σ} (h : Started t) : t.Sound := by
  cases h with
  | submitted vm authority context limits version => exact Task.sound_newWithAuthority _ _ _ _ _
  | resumed state vm authority context version => exact Task.sound_resumed _ _ _ _ _

theorem sound_run {as : List (ExecutionAction σ)} (h : e.task.Sound) : (e.run as).task.Sound := by
  induction as generalizing e with
  | nil => exact h
  | cons a as ih =>
    refine ih ?_
    cases a with
    | call call => exact h.host e.shared call
    | others shared => exact h
    | respond r => exact h.respond r e.shared

/-- Released subscriptions have no capability, whatever is released after them. -/
theorem get?_releaseAll : ∀ (cs : List CapabilityId) (m : MailboxStore) {c : CapabilityId},
    (c ∈ cs ∨ ∀ mailbox, m.caps.get? c ≠ some (.subscription mailbox)) → ∀ mailbox,
      (cs.foldl MailboxStore.releaseSubscription m).caps.get? c ≠ some (.subscription mailbox)
  | [], _, _, h => h.resolve_left not_mem_nil
  | c' :: cs, m, c, h => by
    refine get?_releaseAll cs (m.releaseSubscription c') ?_
    by_cases hc : c = c'
    · rw [hc]
      exact .inr MailboxStore.get?_releaseSubscription_self
    · refine h.imp (fun hmem => (mem_cons.mp hmem).resolve_left hc) fun hnone mailbox => ?_
      rw [MailboxStore.get?_releaseSubscription_of_ne hc]
      exact hnone mailbox

/-- **A retried attempt starts clean if and only if nothing was minted since the last boundary**, in
every state of every run. -/
theorem retry_clean_iff {task : Task σ} (hstart : Started task) (shared : SubscriptionRuntime)
    (as : List (ExecutionAction σ)) (r : Task.Return σ)
    (hretries : ((⟨task, shared⟩ : Execution σ).run as).Retries r) :
    ((⟨task, shared⟩ : Execution σ).run as).Clean r ↔
      ((⟨task, shared⟩ : Execution σ).run as).task.history.minted = [] := by
  generalize he : (⟨task, shared⟩ : Execution σ).run as = e at hretries ⊢
  have hsound : e.task.Sound := by
    rw [← he]
    exact sound_run hstart.sound
  obtain ⟨htx, hafter⟩ := Task.respond_of_retries hretries
  have htask : (e.step (.respond r)).task = e.task.retried r := congrArg Prod.fst hafter
  have hshared : (e.step (.respond r)).shared = e.task.released e.shared := congrArg Prod.snd hafter
  refine ⟨fun hclean => ?_, fun hminted => ?_⟩
  · by_contra hne
    have hauthority := hclean.authority
    rw [htask] at hauthority
    have hlt := hsound.marked hne
    rw [← hauthority] at hlt
    exact lt_irrefl _ hlt
  refine ⟨?_, ?_, ?_, ?_, ?_, fun c hc mailbox => ?_, ?_⟩
  · rw [htask]
    exact hsound.vm htx
  · rw [htask]
    exact hsound.kept hminted
  · rw [htask]
    rfl
  · rw [htask]
    rfl
  · rw [htask]
    rfl
  · rw [hshared]
    exact get?_releaseAll _ _ (.inl (hsound.allocated htx c hc)) mailbox
  · rw [htask]
    rfl

/-! ## Two attempts -/

/-- The buffer that an attempt creates. -/
def created : Identity := ⟨9, by decide⟩

/-- A task that may invoke a builtin, and nothing else. -/
def submitted : Execution ℕ :=
  ⟨.newWithAuthority 0 (AuthorityContext.empty.mint ⟨[.invoke], .builtin ⟨3⟩⟩)
    ⟨none, none, created⟩ ⟨10⟩ 0, .new⟩

/-- The machine asks for a commit, and the kernel reports a conflict. -/
def conflicted : Task.Return ℕ :=
  ⟨1, .ok .commit, .bare, ⟨id, fun l => .refl l⟩, .error (.buffer created (.conflict 0 1)), 1⟩

/-- A task of the root. -/
def submittedByRoot : Execution ℕ :=
  ⟨.newWithAuthority 0 .rootContext ⟨none, none, created⟩ ⟨10⟩ 0, .new⟩

/-- The sender of the first mailbox that is opened. -/
def firstSender : Value := ((MailboxStore.new.createMailbox).1.toOption.map Prod.snd).elim
    (.bool false)
  Value.capability

/-- The attempt writes a buffer, opens a mailbox, subscribes for it, and emits and sends. -/
def writes : List (ExecutionAction ℕ) :=
  [.call (.writeBuffer ⟨created, none⟩), .call .createMailbox,
    .call (.subscribeChanges ⟨firstSender, .catalogue, .changesOnly, none, 1⟩),
    .call (.emit created (.bool true)), .call (.sendMailbox firstSender (.bool true))]

theorem retry_clean_iff_writes : (submittedByRoot.run writes).Clean conflicted ∧
    (submittedByRoot.run writes).task.pendingEffects.length = 1 ∧
    (submittedByRoot.run writes).task.pendingMailboxSends.length = 1 ∧
    (submittedByRoot.run writes).task.history.allocated.length = 1 := by
  have hclean := (retry_clean_iff (.submitted 0 .rootContext ⟨none, none, created⟩ ⟨10⟩ 0) .new writes
    conflicted (by decide +kernel)).mpr (by decide +kernel)
  exact ⟨hclean, by decide +kernel, by decide +kernel, by decide +kernel⟩

/-- The attempt creates a buffer: the builtin grants the right to read it. -/
def creates : List (ExecutionAction ℕ) :=
  [.call (.writeBuffer ⟨created, none⟩), .call (.mintCapability ⟨[.read], .relation created⟩)]

/-- **The next attempt may read what the one that failed was granted**, though its boundary had no such
right. -/
theorem grant_survives : (submitted.run creates).Retries conflicted ∧
    ¬ (submitted.run creates).Clean conflicted ∧
    ((submitted.run creates).step (.respond conflicted)).task.authority.canReadRelation created ∧
    ¬ (submitted.run creates).task.history.boundaryAuthority.canReadRelation created := by
  have hreads : ((submitted.run creates).step (.respond conflicted)).task.authority.canReadRelation
      created = true := by
    decide +kernel
  have hboundary : (submitted.run creates).task.history.boundaryAuthority.canReadRelation created =
      false := by
    decide +kernel
  refine ⟨by decide +kernel, fun hclean => ?_, hreads, by rw [hboundary]; exact nofun⟩
  rw [hclean.authority, hboundary] at hreads
  cases hreads

end Execution

end Mica
