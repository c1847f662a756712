import Mica.Runtime.Task

/-!
# Runtime/TaskManager — effects follow commits

A task manager runs many tasks; when a call ends it puts the emissions of the task into its log and the
messages into their mailboxes.

* `TaskManager.effects_follow_commits_iff` — the log and the mailboxes get what the committed
  segments have produced, once and in order, if and only if no call fails that has committed an
  emission or a message.
* `TaskManager.committed_emission_lost` — a task commits an emission and then raises an error.
-/

open SortedList List

namespace Mica

structure Effect where
  taskId : ℕ
  target : Identity
  value : Value
  deriving DecidableEq

/-- The emission behind an effect. -/
def Effect.emission (effect : Effect) : Emission := ⟨effect.target, effect.value⟩

structure SuspendedTask (σ : Type) where
  kind : SuspendKind
  state : TaskState σ

/-- The tasks of a manager.  What was drained from the log and what was sent is kept, with what the
segments of each task have produced in calls that are over. -/
structure TaskManager (σ : Type) where
  nextTaskId : ℕ
  running : SortedMap ℕ (Task σ)
  suspended : SortedMap ℕ (SuspendedTask σ)
  completed : SortedMap ℕ TaskOutcome
  cancelled : List ℕ
  effects : List Effect
  shared : SubscriptionRuntime
  drained : List Effect
  sent : List (ℕ × MailboxSend)
  produced : ℕ → List Emission
  producedSends : ℕ → List MailboxSend

inductive ManagerAction (σ : Type) where
  | submit (vm : σ) (authority : AuthorityContext) (context : RuntimeContext) (limits : TaskLimits)
      (version : ℕ)
  /-- The machine takes the value that it waits for, or refuses it. -/
  | resume (taskId : ℕ) (vm : Except RuntimeError σ) (authority : AuthorityContext)
      (context : RuntimeContext) (version : ℕ)
  | cancel (taskId : ℕ)
  | call (taskId : ℕ) (call : HostCall)
  | respond (taskId : ℕ) (r : Task.Return σ)
  | others (shared : SubscriptionRuntime)
  | drainEmissions

namespace Task

variable {σ : Type} {r : Return σ} {t : Task σ} {shared : SubscriptionRuntime}

/-! ## The queues of a task -/

/-- **A task holds what was committed in its call, and the segment what it has produced.** -/
structure Level (t : Task σ) : Prop where
  effects : t.committedEffects = t.history.produced
  sends : t.committedMailboxSends = t.history.producedSends
  pending : t.pendingEffects = t.history.attempt.filterMap HostCall.emission?
  pendingSends : t.pendingMailboxSends = t.history.attempt.filterMap HostCall.send?

/-- A task whose call is not over. -/
structure Balanced (t : Task σ) : Prop extends Level t where
  tx : t.tx ≠ none

theorem balanced_newWithAuthority (vm : σ) (authority : AuthorityContext) (context : RuntimeContext)
    (limits : TaskLimits) (version : ℕ) :
    (newWithAuthority vm authority context limits version).Balanced :=
  ⟨⟨rfl, rfl, rfl, rfl⟩, nofun⟩

theorem balanced_resumed (state : TaskState σ) (vm : σ) (authority : AuthorityContext)
    (context : RuntimeContext) (version : ℕ) :
    (resumed state vm authority context version).Balanced :=
  ⟨⟨rfl, rfl, rfl, rfl⟩, nofun⟩

/-- A call that neither emits nor sends. -/
theorem Level.accept (h : t.Level) {call : HostCall} (hemission : call.emission? = none)
    (hsend : call.send? = none) : (t.accept call).Level where
  effects := h.effects
  sends := h.sends
  pending := by
    dsimp only [Task.accept]
    rw [filterMap_append, h.pending]
    simp [hemission]
  pendingSends := by
    dsimp only [Task.accept]
    rw [filterMap_append, h.pendingSends]
    simp [hsend]

theorem Balanced.host (h : t.Balanced) (shared : SubscriptionRuntime) (call : HostCall) :
    (t.host shared call).1.Balanced := by
  unfold Task.host
  split
  · exact h
  rename_i tx htx
  have hlevel := h.toLevel
  cases call with
  | write change => exact ⟨⟨hlevel.effects, hlevel.sends, (hlevel.accept rfl rfl).pending,
      (hlevel.accept rfl rfl).pendingSends⟩, nofun⟩
  | writeBuffer pending => exact ⟨⟨hlevel.effects, hlevel.sends, (hlevel.accept rfl rfl).pending,
      (hlevel.accept rfl rfl).pendingSends⟩, nofun⟩
  | emit target value =>
    dsimp only
    split
    · refine ⟨⟨hlevel.effects, hlevel.sends, ?_, ?_⟩, h.tx⟩
      · dsimp only [accept]
        rw [filterMap_append, hlevel.pending]
        rfl
      · dsimp only [accept]
        rw [filterMap_append, hlevel.pendingSends]
        simp [HostCall.send?]
    · exact h
  | sendMailbox sender value =>
    dsimp only
    split
    · exact h
    refine ⟨⟨hlevel.effects, hlevel.sends, ?_, ?_⟩, h.tx⟩
    · dsimp only [accept]
      rw [filterMap_append, hlevel.pending]
      simp [HostCall.emission?]
    · dsimp only [accept]
      rw [filterMap_append, hlevel.pendingSends]
      rfl
  | createMailbox => exact ⟨hlevel.accept rfl rfl, h.tx⟩
  | closeMailbox receiver =>
    dsimp only
    split
    · exact h
    · exact ⟨hlevel.accept rfl rfl, h.tx⟩
  | subscribeChanges request =>
    dsimp only
    split
    · exact h
    · exact ⟨⟨hlevel.effects, hlevel.sends, (hlevel.accept rfl rfl).pending,
        (hlevel.accept rfl rfl).pendingSends⟩, h.tx⟩
  | cancelSubscription subscription =>
    dsimp only
    split
    · exact h
    · exact ⟨⟨hlevel.effects, hlevel.sends, (hlevel.accept rfl rfl).pending,
        (hlevel.accept rfl rfl).pendingSends⟩, h.tx⟩
  | mintCapability grant =>
    exact ⟨⟨hlevel.effects, hlevel.sends, (hlevel.accept rfl rfl).pending,
      (hlevel.accept rfl rfl).pendingSends⟩, h.tx⟩

/-- What a segment has produced moves to what was committed. -/
theorem Level.finish (h : t.Level) (left : List SubscriptionOperation)
    (disposition : BoundaryDisposition) :
    ({ t.markCommitted with
      pendingSubscriptions := left }.finishSuccessfulBoundary r disposition).Level := by
  have heffects : t.committedEffects ++ t.pendingEffects =
      t.history.produced ++ t.history.attempt.filterMap HostCall.emission? := by
    rw [h.effects, h.pending]
  have hsends : t.committedMailboxSends ++ t.pendingMailboxSends =
      t.history.producedSends ++ t.history.attempt.filterMap HostCall.send? := by
    rw [h.sends, h.pendingSends]
  cases disposition with
  | «continue» => exact ⟨heffects, hsends, rfl, rfl⟩
  | finish => exact ⟨heffects, hsends, rfl, rfl⟩

theorem Level.retried (h : t.Level) : (t.retried r).Level := ⟨h.effects, h.sends, rfl, rfl⟩

variable {disposition : BoundaryDisposition} {shared' : SubscriptionRuntime}

theorem Level.boundary {wrote : Bool} {result : BoundaryResult} {t' : Task σ} (h : t.Level)
    (hboundary : Boundary r disposition wrote t shared (.ok result, t', shared')) : t'.Level := by
  cases hboundary with
  | committed left => exact h.finish left disposition
  | retried => exact h.retried

/-- After a boundary that the program goes on from there is a transaction again. -/
theorem Boundary.tx_ne_none {wrote : Bool} {result : BoundaryResult} {t' : Task σ}
    (h : Boundary r disposition wrote t shared (.ok result, t', shared'))
    (hgoes : result = .committed → disposition = .continue) : t'.tx ≠ none := by
  cases h with
  | committed left =>
    obtain rfl := hgoes rfl
    exact nofun
  | retried => exact nofun

/-- What a call has produced when it fails: nothing more, unless the segment was published. -/
theorem Boundary.produced {wrote : Bool} {error : TaskError} {t' : Task σ} (h : t.Level)
    (hboundary : Boundary r disposition wrote t shared (.error error, t', shared')) :
    t'.history.produced = t.history.produced ++
        (if wrote && r.committed.isOk then t.pendingEffects else []) ∧
      t'.history.producedSends = t.history.producedSends ++
        (if wrote && r.committed.isOk then t.pendingMailboxSends else []) := by
  have hnot : r.committed ≠ .ok () → r.committed.isOk = false := fun hne => by
    rcases hcommitted : r.committed with _ | u
    · rfl
    exact absurd hcommitted hne
  cases hboundary with
  | refused hwrote error left =>
    rw [hwrote]
    exact ⟨(append_nil _).symm, (append_nil _).symm⟩
  | handOverFailed hwrote hcommitted error left =>
    rw [hwrote, hcommitted, h.pending, h.pendingSends]
    exact ⟨rfl, rfl⟩
  | exhausted hne =>
    rw [hnot hne, Bool.and_false]
    exact ⟨(append_nil _).symm, (append_nil _).symm⟩
  | failed hne error =>
    rw [hnot hne, Bool.and_false]
    exact ⟨(append_nil _).symm, (append_nil _).symm⟩

/-- The queues after a turn, for each way it can end. -/
def Settles (r : Return σ) (t : Task σ) :
    Except TaskError (Option TaskOutcome) × Task σ × SubscriptionRuntime → Prop
  | (.ok none, t', _) => t'.Balanced
  | (.ok (some outcome), t', _) =>
    outcome.effects = t'.history.produced ∧ outcome.mailboxSends = t'.history.producedSends
  | (.error _, t', _) =>
    t'.history.produced = t.history.produced ++ (if t.publishes r then t.pendingEffects else []) ∧
      t'.history.producedSends =
        t.history.producedSends ++ (if t.publishes r then t.pendingMailboxSends else [])

/-- **An outcome carries what was committed in its call.** -/
theorem Balanced.respond (h : t.Balanced) (r : Return σ) (shared : SubscriptionRuntime) :
    Settles r t (t.respond r shared) := by
  have hlevel := h.toLevel
  have htaken : ({ t with vm := r.vm, tx := none } : Task σ).Level :=
    ⟨hlevel.effects, hlevel.sends, hlevel.pending, hlevel.pendingSends⟩
  have hquiet : r.asksBoundary = false → t.publishes r = false := fun hasks => by
    rw [publishes, hasks]
    rfl
  have hspec := respond_spec r t shared
  generalize t.respond r shared = result at hspec
  cases hspec with
  | missing htx => exact absurd htx h.tx
  | raised hasks error =>
    unfold Settles
    rw [hquiet hasks]
    exact ⟨(append_nil _).symm, (append_nil _).symm⟩
  | continued => exact ⟨⟨hlevel.effects, hlevel.sends, hlevel.pending, hlevel.pendingSends⟩, h.tx⟩
  | passed hgoes hboundary => exact ⟨htaken.boundary hboundary, hboundary.tx_ne_none hgoes⟩
  | ended heffects hsends hboundary =>
    have hdone := htaken.boundary hboundary
    exact ⟨heffects.trans hdone.effects, hsends.trans hdone.sends⟩
  | failed hasks htx hboundary =>
    have hproduced := hboundary.produced htaken
    unfold Settles publishes
    rwa [hasks, htx]
  | aborted error => exact ⟨hlevel.effects, hlevel.sends⟩
  | rolledBack => exact ⟨hlevel.retried (r := r), nofun⟩
  | exhausted hasks =>
    unfold Settles
    rw [hquiet hasks]
    exact ⟨(append_nil _).symm, (append_nil _).symm⟩

end Task

namespace TaskManager

variable {σ : Type}

/-- `TaskManager::new`. -/
def new : TaskManager σ :=
  ⟨1, SortedMap.empty, SortedMap.empty, SortedMap.empty, [], [], .new, [], [],
    fun _ => [], fun _ => []⟩

/-- `EffectLog::emit`. -/
def emit (m : TaskManager σ) (taskId : ℕ) (effects : List Emission) : TaskManager σ :=
  { m with effects := m.effects ++ effects.map fun e => ⟨taskId, e.target, e.value⟩ }

/-- `MailboxStore::deliver` of what a task has sent. -/
def deliver (m : TaskManager σ) (taskId : ℕ) (sends : List MailboxSend) : TaskManager σ :=
  { m with
    shared := { m.shared with mailboxes := m.shared.mailboxes.deliver sends }
    sent := m.sent ++ sends.map fun send => (taskId, send) }

/-- `TaskManager::record_outcome`, with the state of a task that is suspended. -/
def recordOutcome (m : TaskManager σ) (taskId : ℕ) (outcome : TaskOutcome) (state : TaskState σ) :
    TaskManager σ :=
  let m := (m.emit taskId outcome.effects).deliver taskId outcome.mailboxSends
  match outcome with
  | .suspended kind _ _ _ => { m with suspended := m.suspended.insert taskId ⟨kind, state⟩ }
  | outcome => { m with completed := m.completed.insert taskId outcome }

/-- A call is over. -/
def leave (m : TaskManager σ) (taskId : ℕ) (t : Task σ) (shared : SubscriptionRuntime) :
    TaskManager σ :=
  { m with
    running := m.running.erase taskId
    shared
    produced := Function.update m.produced taskId (m.produced taskId ++ t.history.produced)
    producedSends :=
      Function.update m.producedSends taskId (m.producedSends taskId ++ t.history.producedSends) }

def step (m : TaskManager σ) : ManagerAction σ → TaskManager σ
  | .submit vm authority context limits version =>
    { m with
      nextTaskId := m.nextTaskId + 1
      running := m.running.insert m.nextTaskId
        (.newWithAuthority vm authority context limits version) }
  | .resume taskId vm authority context version =>
    if taskId ∈ m.cancelled ∨ (m.completed.get? taskId).isSome then m
    else
      match m.suspended.get? taskId with
      | none => m
      | some task =>
        let m := { m with suspended := m.suspended.erase taskId }
        match vm with
        | .error _ => m
        | .ok vm =>
          { m with
            running := m.running.insert taskId (.resumed task.state vm authority context version) }
  | .cancel taskId =>
    if taskId ∈ m.cancelled ∨ (m.completed.get? taskId).isSome then m
    else
      match m.suspended.get? taskId with
      | none => m
      | some _ => { m with
          suspended := m.suspended.erase taskId
          cancelled := taskId :: m.cancelled }
  | .call taskId call =>
    match m.running.get? taskId with
    | none => m
    | some t =>
      let (t, shared) := t.host m.shared call
      { m with running := m.running.insert taskId t, shared }
  | .respond taskId r =>
    match m.running.get? taskId with
    | none => m
    | some t =>
      match t.respond r m.shared with
      | (.ok none, t, shared) => { m with running := m.running.insert taskId t, shared }
      -- the task is dropped, with the effects that it holds
      | (.error _, t, shared) => m.leave taskId t shared
      | (.ok (some outcome), t, shared) =>
        (m.leave taskId t shared).recordOutcome taskId outcome t.checkpoint
  | .others shared => { m with shared }
  | .drainEmissions => { m with effects := [], drained := m.drained ++ m.effects }

def run (m : TaskManager σ) (as : List (ManagerAction σ)) : TaskManager σ := as.foldl step m

/-! ## What was handed over, and what should have been -/

/-- The emissions of a task that were put into the log, in order. -/
def handed (m : TaskManager σ) (taskId : ℕ) : List Emission :=
  ((m.drained ++ m.effects).filter fun effect => effect.taskId = taskId).map Effect.emission

/-- The messages of a task that were delivered, in order. -/
def handedSends (m : TaskManager σ) (taskId : ℕ) : List MailboxSend :=
  (m.sent.filter fun send => send.1 = taskId).map Prod.snd

/-- **Effects follow commits**: what was handed over of a task is what its committed segments have
produced; a task whose call is not over holds what was committed in it. -/
structure Exact (m : TaskManager σ) : Prop where
  idle : ∀ taskId, m.running.get? taskId = none →
    m.handed taskId = m.produced taskId ∧ m.handedSends taskId = m.producedSends taskId
  busy : ∀ taskId t, m.running.get? taskId = some t →
    m.handed taskId ++ t.committedEffects = m.produced taskId ++ t.history.produced ∧
      m.handedSends taskId ++ t.committedMailboxSends =
        m.producedSends taskId ++ t.history.producedSends

/-- Every state of a run is exact. -/
def ExactAll (m : TaskManager σ) : List (ManagerAction σ) → Prop
  | [] => m.Exact
  | a :: as => m.Exact ∧ (m.step a).ExactAll as

/-- **A call that fails holds neither emission nor message that was committed**: not from before,
and not from the segment that it publishes as it fails. -/
def Fits (m : TaskManager σ) : ManagerAction σ → Prop
  | .respond taskId r => ∀ t, m.running.get? taskId = some t → t.fails r m.shared = true →
      (t.committedEffects = [] ∧ t.committedMailboxSends = []) ∧
        (t.publishes r = true → t.pendingEffects = [] ∧ t.pendingMailboxSends = [])
  | _ => True

def FitsAll (m : TaskManager σ) : List (ManagerAction σ) → Prop
  | [] => True
  | a :: as => m.Fits a ∧ (m.step a).FitsAll as

/-! ## The invariant -/

variable {m : TaskManager σ}

/-- Calls that are over have handed over what they have produced. -/
structure Inv (m : TaskManager σ) : Prop where
  effects : ∀ taskId, m.handed taskId = m.produced taskId
  sends : ∀ taskId, m.handedSends taskId = m.producedSends taskId
  balanced : ∀ taskId t, m.running.get? taskId = some t → t.Balanced

theorem inv_new : (new : TaskManager σ).Inv := ⟨fun _ => rfl, fun _ => rfl, nofun⟩

theorem Inv.exact (h : m.Inv) : m.Exact where
  idle taskId _ := ⟨h.effects taskId, h.sends taskId⟩
  busy taskId t ht := by
    have hbalanced := h.balanced taskId t ht
    rw [h.effects, h.sends, hbalanced.effects, hbalanced.sends]
    exact ⟨rfl, rfl⟩

variable {t : Task σ}

/-- One task of a manager is replaced. -/
theorem Inv.insert (h : m.Inv) (taskId : ℕ) (ht : t.Balanced) (shared : SubscriptionRuntime) :
    ({ m with running := m.running.insert taskId t, shared } : TaskManager σ).Inv := by
  refine ⟨h.effects, h.sends, fun id t' ht' => ?_⟩
  dsimp only at ht'
  rw [SortedMap.get?_insert] at ht'
  split at ht'
  · exact Option.some.inj ht' ▸ ht
  · exact h.balanced id t' ht'

theorem balanced_of_erase {taskId : ℕ} (h : m.Inv) {id : ℕ}
    (ht : (m.running.erase taskId).get? id = some t) : t.Balanced := by
  rw [SortedMap.get?_erase] at ht
  split at ht
  · exact nomatch ht
  exact h.balanced id t ht

/-- Nothing is handed over when a call is left. -/
theorem leave_spec (m : TaskManager σ) (taskId : ℕ) (t : Task σ) (shared : SubscriptionRuntime)
    (id : ℕ) :
    (m.leave taskId t shared).handed id = m.handed id ∧
      (m.leave taskId t shared).handedSends id = m.handedSends id ∧
      (m.leave taskId t shared).produced id =
        (if id = taskId then m.produced id ++ t.history.produced else m.produced id) ∧
      (m.leave taskId t shared).producedSends id =
        (if id = taskId then m.producedSends id ++ t.history.producedSends
          else m.producedSends id) := by
  refine ⟨rfl, rfl, ?_, ?_⟩
  · dsimp only [leave]
    rw [Function.update_apply]
    split
    · next heq => rw [heq]
    · rfl
  dsimp only [leave]
  rw [Function.update_apply]
  split
  · next heq => rw [heq]
  · rfl

/-- The log and the mailboxes get the emissions and the messages of an outcome. -/
theorem recordOutcome_spec (m : TaskManager σ) (taskId : ℕ) (outcome : TaskOutcome)
    (state : TaskState σ) (id : ℕ) :
    (m.recordOutcome taskId outcome state).handed id =
        (if id = taskId then m.handed id ++ outcome.effects else m.handed id) ∧
      (m.recordOutcome taskId outcome state).handedSends id =
        (if id = taskId then m.handedSends id ++ outcome.mailboxSends else m.handedSends id) := by
  have heffects : (m.recordOutcome taskId outcome state).drained ++
      (m.recordOutcome taskId outcome state).effects = (m.drained ++ m.effects) ++
        outcome.effects.map fun e => (⟨taskId, e.target, e.value⟩ : Effect) := by
    unfold recordOutcome emit deliver
    cases outcome with
    | complete value effects sends retries => exact (append_assoc _ _ _).symm
    | suspended kind effects sends retries => exact (append_assoc _ _ _).symm
    | aborted error effects sends retries => exact (append_assoc _ _ _).symm
  have hsent : (m.recordOutcome taskId outcome state).sent =
      m.sent ++ outcome.mailboxSends.map fun send => (taskId, send) := by
    unfold recordOutcome emit deliver
    cases outcome with
    | complete value effects sends retries => rfl
    | suspended kind effects sends retries => rfl
    | aborted error effects sends retries => rfl
  unfold handed handedSends
  rw [heffects, hsent, filter_append, map_append, filter_append, map_append]
  by_cases hid : id = taskId
  · rw [if_pos hid, if_pos hid, hid]
    simp [filter_map, Function.comp_def, Effect.emission]
  · rw [if_neg hid, if_neg hid]
    simp [filter_map, Function.comp_def, Ne.symm hid]

theorem recordOutcome_frame (m : TaskManager σ) (taskId : ℕ) (outcome : TaskOutcome)
    (state : TaskState σ) :
    (m.recordOutcome taskId outcome state).running = m.running ∧
      (m.recordOutcome taskId outcome state).produced = m.produced ∧
      (m.recordOutcome taskId outcome state).producedSends = m.producedSends := by
  unfold recordOutcome emit deliver
  cases outcome with
  | complete value effects sends retries => exact ⟨rfl, rfl, rfl⟩
  | suspended kind effects sends retries => exact ⟨rfl, rfl, rfl⟩
  | aborted error effects sends retries => exact ⟨rfl, rfl, rfl⟩

/-- **A call with an outcome hands over what was committed in it.** -/
theorem Inv.record (h : m.Inv) {taskId : ℕ} {shared : SubscriptionRuntime}
    {outcome : TaskOutcome} (heffects : outcome.effects = t.history.produced)
    (hsends : outcome.mailboxSends = t.history.producedSends) (state : TaskState σ) :
    ((m.leave taskId t shared).recordOutcome taskId outcome state).Inv := by
  obtain ⟨hrunning, hproduced, hproducedSends⟩ :=
    recordOutcome_frame (m.leave taskId t shared) taskId outcome state
  refine ⟨fun id => ?_, fun id => ?_, fun id t' ht' => ?_⟩
  · obtain ⟨hhanded, -⟩ := recordOutcome_spec (m.leave taskId t shared) taskId outcome state id
    obtain ⟨hkept, -, hmore, -⟩ := leave_spec m taskId t shared id
    rw [hhanded, hproduced, hkept, hmore, heffects, h.effects]
  · obtain ⟨-, hhanded⟩ := recordOutcome_spec (m.leave taskId t shared) taskId outcome state id
    obtain ⟨-, hkept, -, hmore⟩ := leave_spec m taskId t shared id
    rw [hhanded, hproducedSends, hkept, hmore, hsends, h.sends]
  · rw [hrunning] at ht'
    exact balanced_of_erase h ht'

/-- What was produced is handed over after a call that fails, if it has produced nothing. -/
theorem Inv.leave (h : m.Inv) {taskId : ℕ} (hproduced : t.history.produced = [])
    (hsends : t.history.producedSends = []) (shared : SubscriptionRuntime) :
    (m.leave taskId t shared).Inv := by
  refine ⟨fun id => ?_, fun id => ?_, fun id t' ht' => balanced_of_erase h ht'⟩
  · obtain ⟨hkept, -, hmore, -⟩ := leave_spec m taskId t shared id
    rw [hkept, hmore, hproduced, append_nil, ite_self, h.effects]
  · obtain ⟨-, hkept, -, hmore⟩ := leave_spec m taskId t shared id
    rw [hkept, hmore, hsends, append_nil, ite_self, h.sends]

/-- A call that fails and has produced something. -/
theorem Inv.not_exact_leave (h : m.Inv) {taskId : ℕ}
    (hproduced : ¬ (t.history.produced = [] ∧ t.history.producedSends = []))
    (shared : SubscriptionRuntime) : ¬ (m.leave taskId t shared).Exact := by
  intro hexact
  have hgone : (m.leave taskId t shared).running.get? taskId = none :=
    (SortedMap.get?_erase taskId).trans (if_pos rfl)
  obtain ⟨heffects, hsends⟩ := hexact.idle taskId hgone
  obtain ⟨hkept, hkeptSends, hmore, hmoreSends⟩ := leave_spec m taskId t shared taskId
  rw [hkept, hmore, if_pos rfl, h.effects] at heffects
  rw [hkeptSends, hmoreSends, if_pos rfl, h.sends] at hsends
  exact hproduced ⟨self_eq_append_right.mp heffects, self_eq_append_right.mp hsends⟩

/-! ## Steps and runs -/

/-- The condition on a failing call, read on the task it leaves. -/
theorem fits_iff {t' : Task σ} {r : Task.Return σ} (ht : t.Level) (hproduced : t'.history.produced =
      t.history.produced ++ (if t.publishes r then t.pendingEffects else []))
    (hsends : t'.history.producedSends =
      t.history.producedSends ++ (if t.publishes r then t.pendingMailboxSends else [])) :
    ((t.committedEffects = [] ∧ t.committedMailboxSends = []) ∧
        (t.publishes r = true → t.pendingEffects = [] ∧ t.pendingMailboxSends = [])) ↔
      t'.history.produced = [] ∧ t'.history.producedSends = [] := by
  rw [hproduced, hsends, append_eq_nil_iff, append_eq_nil_iff, ht.effects, ht.sends]
  cases hpublishes : t.publishes r with
  | true => simp only [if_true, true_implies]; tauto
  | false => simp

/-- **A step hands over what it should exactly if it fits.** -/
theorem Inv.step (h : m.Inv) (a : ManagerAction σ) :
    (m.Fits a → (m.step a).Inv) ∧ (¬ m.Fits a → ¬ (m.step a).Exact) := by
  cases a with
  | submit vm authority context limits version =>
    refine ⟨fun _ => ?_, fun hnot => absurd trivial hnot⟩
    have hinserted := h.insert m.nextTaskId
      (Task.balanced_newWithAuthority vm authority context limits version) m.shared
    exact ⟨hinserted.effects, hinserted.sends, hinserted.balanced⟩
  | resume taskId vm authority context version =>
    refine ⟨fun _ => ?_, fun hnot => absurd trivial hnot⟩
    dsimp only [TaskManager.step]
    split
    · exact h
    split
    · exact h
    rename_i task _
    cases vm with
    | error error => exact ⟨h.effects, h.sends, h.balanced⟩
    | ok vm =>
      have hinserted := h.insert taskId
        (Task.balanced_resumed task.state vm authority context version) m.shared
      exact ⟨hinserted.effects, hinserted.sends, hinserted.balanced⟩
  | cancel taskId =>
    refine ⟨fun _ => ?_, fun hnot => absurd trivial hnot⟩
    dsimp only [TaskManager.step]
    split
    · exact h
    · split
      · exact h
      · exact ⟨h.effects, h.sends, h.balanced⟩
  | call taskId call =>
    refine ⟨fun _ => ?_, fun hnot => absurd trivial hnot⟩
    dsimp only [TaskManager.step]
    split
    · exact h
    · next t ht => exact h.insert taskId ((h.balanced taskId t ht).host m.shared call) _
  | respond taskId r =>
    dsimp only [TaskManager.step, Fits]
    split
    · next hnone => exact ⟨fun _ => h, fun hnot =>
        absurd (fun t ht => by cases hnone.symm.trans ht) hnot⟩
    rename_i t ht
    have hbalanced := h.balanced taskId t ht
    have hsettles := hbalanced.respond r m.shared
    have hfails := Task.respond_isOk r t m.shared
    -- a call that does not fail has no condition to meet
    have hquiet : (true = !t.fails r m.shared) → ∀ t₁, m.running.get? taskId = some t₁ →
        t₁.fails r m.shared = true → (t₁.committedEffects = [] ∧ t₁.committedMailboxSends = []) ∧
          (t₁.publishes r = true → t₁.pendingEffects = [] ∧ t₁.pendingMailboxSends = []) := by
      intro hno t₁ ht₁ hyes
      obtain rfl := Option.some.inj (ht.symm.trans ht₁)
      rw [hyes] at hno
      cases hno
    split
    · next t' shared' heq =>
      rw [heq] at hsettles hfails
      exact ⟨fun _ => h.insert taskId hsettles shared',
        fun hnot => absurd (hquiet hfails) hnot⟩
    · next error t' shared' heq =>
      rw [heq] at hsettles hfails
      have hiff := fits_iff hbalanced.toLevel hsettles.1 hsettles.2
      have hyes : t.fails r m.shared = true := by
        simpa using (show false = !t.fails r m.shared from hfails).symm
      refine ⟨fun hfits => ?_, fun hnot => h.not_exact_leave
        (fun hempty => hnot fun t₁ ht₁ _ => ?_) shared'⟩
      · obtain ⟨hproduced, hsends⟩ := hiff.mp (hfits t ht hyes)
        exact h.leave hproduced hsends shared'
      · obtain rfl := Option.some.inj (ht.symm.trans ht₁)
        exact hiff.mpr hempty
    · next outcome t' shared' heq =>
      rw [heq] at hsettles hfails
      exact ⟨fun _ => h.record hsettles.1 hsettles.2 t'.checkpoint,
        fun hnot => absurd (hquiet hfails) hnot⟩
  | others shared =>
    exact ⟨fun _ => ⟨h.effects, h.sends, h.balanced⟩, fun hnot => absurd trivial hnot⟩
  | drainEmissions =>
    refine ⟨fun _ => ⟨fun id => ?_, h.sends, h.balanced⟩, fun hnot => absurd trivial hnot⟩
    refine Eq.trans ?_ (h.effects id)
    dsimp only [TaskManager.step, handed]
    rw [append_nil]

theorem exact_of_exactAll {as : List (ManagerAction σ)} (h : m.ExactAll as) : m.Exact := by
  cases as with
  | nil => exact h
  | cons a as => exact h.1

theorem Inv.exactAll_iff (h : m.Inv) (as : List (ManagerAction σ)) :
    m.ExactAll as ↔ m.FitsAll as := by
  induction as generalizing m with
  | nil => exact iff_of_true h.exact trivial
  | cons a as ih =>
    obtain ⟨hfits, hnot⟩ := h.step a
    by_cases hstep : m.Fits a
    · exact ⟨fun hall => ⟨hstep, (ih (hfits hstep)).mp hall.2⟩,
        fun hall => ⟨h.exact, (ih (hfits hstep)).mpr hall.2⟩⟩
    · exact iff_of_false (fun hall => hnot hstep (exact_of_exactAll hall.2)) fun hall => hstep hall.1

/-- **Effects follow commits exactly once**, in every state of a run, if and only if no call of it
fails that has committed an emission or a message. -/
theorem effects_follow_commits_iff (as : List (ManagerAction σ)) :
    (new : TaskManager σ).ExactAll as ↔ (new : TaskManager σ).FitsAll as :=
  inv_new.exactAll_iff as

/-- An identity to emit to, and a relation to write to. -/
def target : Identity := .ofByte 7

/-- The kernel commits whatever it is asked to. -/
def returns (response : Except RuntimeError VmHostResponse) : Task.Return ℕ :=
  ⟨0, response, .bare, ⟨id, fun l => .refl l⟩, .ok (), 1⟩

/-- A task emits, writes and commits, emits again and completes; another one only raises an error. -/
def commitsThenCompletes : List (ManagerAction ℕ) :=
  [.submit 0 .rootContext ⟨none, none, target⟩ ⟨10⟩ 0, .call 1 (.emit target (.bool true)),
    .call 1 (.write ⟨target, [.bool true], .assert⟩), .respond 1 (returns (.ok .commit)),
    .submit 0 .rootContext ⟨none, none, target⟩ ⟨10⟩ 0, .call 2 (.emit target (.bool true)),
    .respond 2 (returns (.error (.machine "division by zero"))), .call 1 (.emit target (.bool false)),
    .respond 1 (returns (.ok (.complete (.bool true))))]

theorem effects_follow_commits_iff_commitsThenCompletes :
    (new : TaskManager ℕ).ExactAll commitsThenCompletes ∧
      ((new : TaskManager ℕ).run commitsThenCompletes).handed 1 =
        [⟨target, .bool true⟩, ⟨target, .bool false⟩] := by
  refine ⟨(effects_follow_commits_iff commitsThenCompletes).mpr
    ⟨trivial, trivial, trivial, ?_, trivial,
    trivial, ?_, trivial, ?_, trivial⟩, by decide +kernel⟩
  · intro t ht hfails
    cases ht
    exact absurd hfails (by decide +kernel)
  · intro t ht _
    cases ht
    exact ⟨⟨rfl, rfl⟩, fun hpublishes => absurd hpublishes (by decide +kernel)⟩
  · intro t ht hfails
    cases ht
    exact absurd hfails (by decide +kernel)

/-! ## A task that commits and then fails -/

theorem exact_run {as : List (ManagerAction σ)} (h : m.ExactAll as) : (m.run as).Exact := by
  induction as generalizing m with
  | nil => exact h
  | cons a as ih => exact ih h.2

/-- A task emits, writes and commits; then it raises an error. -/
def commitsThenRaises : List (ManagerAction ℕ) :=
  [.submit 0 .rootContext ⟨none, none, target⟩ ⟨10⟩ 0, .call 1 (.emit target (.bool true)),
    .call 1 (.write ⟨target, [.bool true], .assert⟩), .respond 1 (returns (.ok .commit)),
    .respond 1 (returns (.error (.machine "division by zero")))]

/-- **The emission of the committed segment is lost.** -/
theorem committed_emission_lost :
    ((new : TaskManager ℕ).run commitsThenRaises).produced 1 = [⟨target, .bool true⟩] ∧
      ((new : TaskManager ℕ).run commitsThenRaises).handed 1 = [] ∧
      ¬ (new : TaskManager ℕ).ExactAll commitsThenRaises := by
  have hproduced : ((new : TaskManager ℕ).run commitsThenRaises).produced 1 =
      [⟨target, .bool true⟩] := by
    decide +kernel
  have hhanded : ((new : TaskManager ℕ).run commitsThenRaises).handed 1 = [] := by decide +kernel
  refine ⟨hproduced, hhanded, fun hall => ?_⟩
  obtain ⟨heffects, -⟩ := (exact_run hall).idle 1 rfl
  rw [hhanded, hproduced] at heffects
  exact nomatch heffects

end TaskManager

end Mica
