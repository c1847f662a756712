import Mica.Kernel.Snapshot

/-!
# Provider/CommitWriter — the queue between the kernel and the disk

A commit is queued by the kernel, one at a time under its commit guard, and written by a thread of its
own.  In strict mode the kernel waits for the write; in relaxed mode it goes on, and finds out about a
failure when it looks at the error flag before the next commit.  Every access to what the two share
is a step of its own.

* `CommitWriter.durable_of_fits` — what was written is a prefix of what was queued, if no commit is
  on its way while a write fails.
* `CommitWriter.later_commit_written` — the thread itself never looks at the flag, so a commit that
  was queued before the failure is written after it.
-/

open List Bool
open Option (some.inj)

namespace Mica

inductive FjallDurabilityMode where
  | relaxed | strict
  deriving DecidableEq

inductive WriterMessage where
  | persist (commit : Commit) (reply : Bool)
  | shutdown
  | flush (caller : ℕ)
  deriving DecidableEq

/-- The commit that a message asks to write. -/
def WriterMessage.commit? : WriterMessage → Option Commit
  | .persist commit _ => some commit
  | .shutdown => none
  | .flush _ => none

/-- Where the one call of `persist_commit` stands. -/
inductive PersistCall where
  | idle
  /-- `check_writer_error` has passed. -/
  | checked (commit : Commit)
  | sent (commit : Commit)
  /-- Strict mode: the reply has not come. -/
  | waiting
  deriving DecidableEq

/-- Where `writer_loop` stands. -/
inductive LoopState where
  | receiving
  /-- `write_commit` has returned, with its error if it failed. -/
  | written (commit : Commit) (reply : Bool) (error : Option String)
  | replying
  | stopped
  deriving DecidableEq

/-- The loop works on a commit. -/
def LoopState.busy : LoopState → Bool
  | .receiving => false
  | .written _ _ _ => true
  | .replying => true
  | .stopped => false

/-- The error of the write that the loop has not yet recorded. -/
def LoopState.failed? : LoopState → Option String
  | .written _ _ error => error
  | _ => none

/-- The commit that a call has checked for and not yet sent. -/
def PersistCall.checked? : PersistCall → Option Commit
  | .checked commit => some commit
  | _ => none

/-- The call has handed its commit over. -/
def PersistCall.handedOver : PersistCall → Bool
  | .idle => false
  | .checked _ => false
  | .sent _ => true
  | .waiting => true

/-- The commit writer, with a history of the commits that were queued and of the writes that were
tried. -/
structure CommitWriter where
  durability : FjallDurabilityMode
  initialVersion : ℕ
  queue : List WriterMessage
  queuedVersion : ℕ
  completedVersion : ℕ
  writeError : Option String
  call : PersistCall
  /-- Strict mode: the reply has come and was not yet looked at. -/
  replyReady : Bool
  /-- The callers of `flush` that have passed `check_writer_error`. -/
  flushing : List ℕ
  loop : LoopState
  queued : List Commit
  writes : List (Commit × Option String)
  replies : List (ℕ × Except String Unit)

namespace CommitWriter

/-- The commits in the store: a batch is applied wholly or not at all. -/
def applied (s : CommitWriter) : List Commit :=
  (s.writes.filter fun write => write.2.isNone).map Prod.fst

/-- `FjallCommitWriter::spawn`. -/
def spawn (initialVersion : ℕ) (durability : FjallDurabilityMode) : CommitWriter where
  durability := durability
  initialVersion := initialVersion
  queue := []
  queuedVersion := initialVersion
  completedVersion := initialVersion
  writeError := none
  call := .idle
  replyReady := false
  flushing := []
  loop := .receiving
  queued := []
  writes := []
  replies := []

/-- The bound of the channel. -/
def channelBound : ℕ := 1024

/-- The error of `check_writer_error`. -/
def writerFailed (error : String) : String := "fjall commit writer failed: " ++ error

inductive Action where
  /-- `persist_commit` is called and looks at the error flag. -/
  | persist (commit : Commit)
  /-- It sends its message. -/
  | send
  /-- It counts the message, and returns or waits. -/
  | count
  /-- It receives the reply, or learns that none will come. -/
  | receiveReply
  | flush (caller : ℕ)
  | sendFlush (caller : ℕ)
  | shutdown
  /-- The loop receives a message and works on it; the disk fails or does not. -/
  | receive (error : Option String)
  /-- The loop records the outcome of a write. -/
  | record
  | reply
  deriving DecidableEq

/-- A message is sent unless the channel is full. -/
def enqueue (s : CommitWriter) (message : WriterMessage) : Option CommitWriter :=
  if s.queue.length < channelBound then some { s with queue := s.queue ++ [message] } else none

/-- One step of `writer_loop` on a message; `error` is what the disk does to it. -/
def handle (s : CommitWriter) (error : Option String) : WriterMessage → CommitWriter
  | .persist commit reply =>
    { s with loop := .written commit reply error, writes := s.writes ++ [(commit, error)] }
  | .shutdown => { s with loop := .stopped }
  | .flush caller =>
    let result := match s.writeError with
      | some error => .error (writerFailed error)
      | none => match error with
        | some error => .error ("failed to sync fjall journal: " ++ error)
        | none => .ok ()
    { s with replies := s.replies ++ [(caller, result)] }

/-- One step, if it can be taken. -/
def step (s : CommitWriter) : Action → Option CommitWriter
  | .persist commit =>
    -- the kernel's versions grow, and it makes one call at a time
    if s.call = .idle ∧ s.queuedVersion < commit.version then
      match s.writeError with
      | some _ => some s
      | none => some { s with call := .checked commit }
    else none
  | .send =>
    match s.call with
    | .checked commit =>
      if s.loop = .stopped then some { s with call := .idle }
      else
        (s.enqueue (.persist commit (s.durability = .strict))).map fun s =>
          { s with call := .sent commit, queued := s.queued ++ [commit] }
    | _ => none
  | .count =>
    match s.call with
    | .sent commit =>
      some { s with
        queuedVersion := max s.queuedVersion commit.version
        call := if s.durability = .strict then .waiting else .idle }
    | _ => none
  | .receiveReply =>
    if s.call = .waiting ∧ (s.replyReady ∨ s.loop = .stopped) then
      some { s with call := .idle, replyReady := false }
    else none
  | .flush caller =>
    match s.writeError with
    | some error => some { s with replies := s.replies ++ [(caller, .error (writerFailed error))] }
    | none => some { s with flushing := s.flushing ++ [caller] }
  | .sendFlush caller =>
    if caller ∈ s.flushing then
      if s.loop = .stopped then some { s with flushing := s.flushing.erase caller }
      else (s.enqueue (.flush caller)).map fun s => { s with flushing := s.flushing.erase caller }
    else none
  | .shutdown => if s.loop = .stopped then some s else s.enqueue .shutdown
  | .receive error =>
    match s.loop, s.queue with
    | .receiving, message :: queue => some ({ s with queue := queue }.handle error message)
    | _, _ => none
  | .record =>
    match s.loop with
    | .written commit reply none =>
      some { s with
        completedVersion := max s.completedVersion commit.version
        loop := if reply then .replying else .receiving }
    | .written _ reply (some error) =>
      some { s with writeError := some error, loop := if reply then .replying else .receiving }
    | _ => none
  | .reply =>
    if s.loop = .replying then some { s with loop := .receiving, replyReady := true } else none

/-- A run; steps that cannot be taken are skipped. -/
def run (s : CommitWriter) : List Action → CommitWriter
  | [] => s
  | a :: as => ((s.step a).getD s).run as

/-! ## What a step can do -/

/-- The commits that wait in the queue. -/
def pending (s : CommitWriter) : List Commit := s.queue.filterMap WriterMessage.commit?

/-- **Everything that a step can change.** -/
inductive Change (s : CommitWriter) : Action → CommitWriter → Prop where
  | nothing (a : Action) : Change s a s
  /-- A flush or a shutdown comes, or a flush is answered. -/
  | aside {queue : List WriterMessage} (h : queue.filterMap WriterMessage.commit? = s.pending)
      (flushing : List ℕ) (replies : List (ℕ × Except String Unit)) (a : Action) :
      Change s a { s with queue, flushing, replies }
  | checked {commit : Commit} (hidle : s.call = .idle) (hversion : s.queuedVersion < commit.version)
      (herror : s.writeError = none) :
      Change s (.persist commit) { s with call := .checked commit }
  | refused {commit : Commit} (hcall : s.call = .checked commit) (hloop : s.loop = .stopped) :
      Change s .send { s with call := .idle }
  | sent {commit : Commit} (hcall : s.call = .checked commit) (hloop : s.loop ≠ .stopped) :
      Change s .send { s with
        queue := s.queue ++ [.persist commit (s.durability = .strict)]
        call := .sent commit, queued := s.queued ++ [commit] }
  | counted {commit : Commit} (hcall : s.call = .sent commit) :
      Change s .count { s with
        queuedVersion := max s.queuedVersion commit.version
        call := if s.durability = .strict then .waiting else .idle }
  | returned (hcall : s.call = .waiting) (hreply : s.replyReady ∨ s.loop = .stopped) :
      Change s .receiveReply { s with call := .idle, replyReady := false }
  | wrote {commit : Commit} {reply : Bool} {queue : List WriterMessage} (hloop : s.loop = .receiving)
      (hqueue : s.queue = .persist commit reply :: queue) (error : Option String) :
      Change s (.receive error) { s with
        queue := queue, loop := .written commit reply error
        writes := s.writes ++ [(commit, error)] }
  | stopped {queue : List WriterMessage} (hloop : s.loop = .receiving)
      (hqueue : s.queue = .shutdown :: queue) (error : Option String) :
      Change s (.receive error) { s with queue := queue, loop := .stopped }
  | completed {commit : Commit} {reply : Bool} (hloop : s.loop = .written commit reply none) :
      Change s .record { s with
        completedVersion := max s.completedVersion commit.version
        loop := if reply then .replying else .receiving }
  | failed {commit : Commit} {reply : Bool} {error : String}
      (hloop : s.loop = .written commit reply (some error)) :
      Change s .record { s with
        writeError := some error, loop := if reply then .replying else .receiving }
  | replied (hloop : s.loop = .replying) :
      Change s .reply { s with loop := .receiving, replyReady := true }

variable {s s' : CommitWriter} {a : Action}

theorem enqueue_eq_some {message : WriterMessage} (h : s.enqueue message = some s') :
    s' = { s with queue := s.queue ++ [message] } := by
  unfold enqueue at h
  split at h
  · exact (some.inj h).symm
  · cases h

theorem step_cases (h : s.step a = some s') : Change s a s' := by
  cases a with
  | persist commit =>
    simp only [step] at h
    split at h
    · next hcan =>
      split at h
      · obtain rfl := some.inj h
        exact .nothing _
      · next herror =>
        obtain rfl := some.inj h
        exact .checked hcan.1 hcan.2 herror
    · cases h
  | send =>
    simp only [step] at h
    split at h
    · next commit hcall =>
      split at h
      · next hloop =>
        obtain rfl := some.inj h
        exact .refused hcall hloop
      · next hloop =>
        obtain ⟨t, ht, rfl⟩ := Option.map_eq_some_iff.mp h
        obtain rfl := enqueue_eq_some ht
        exact .sent hcall hloop
    · cases h
  | count =>
    simp only [step] at h
    split at h
    · next commit hcall =>
      obtain rfl := some.inj h
      exact .counted hcall
    · cases h
  | receiveReply =>
    simp only [step] at h
    split at h
    · next hcan =>
      obtain rfl := some.inj h
      exact .returned hcan.1 hcan.2
    · cases h
  | flush caller =>
    simp only [step] at h
    split at h
    · obtain rfl := some.inj h
      exact .aside rfl _ _ _
    · obtain rfl := some.inj h
      exact .aside rfl _ _ _
  | sendFlush caller =>
    simp only [step] at h
    split at h
    · split at h
      · obtain rfl := some.inj h
        exact .aside rfl _ _ _
      · obtain ⟨t, ht, rfl⟩ := Option.map_eq_some_iff.mp h
        obtain rfl := enqueue_eq_some ht
        exact .aside (by simp [pending, WriterMessage.commit?]) _ _ _
    · cases h
  | shutdown =>
    simp only [step] at h
    split at h
    · obtain rfl := some.inj h
      exact .nothing _
    · obtain rfl := enqueue_eq_some h
      exact .aside (by simp [pending, WriterMessage.commit?]) _ _ _
  | receive error =>
    simp only [step] at h
    split at h
    · next message queue hloop hqueue =>
      obtain rfl := some.inj h
      cases message with
      | persist commit reply => exact .wrote hloop hqueue error
      | shutdown => exact .stopped hloop hqueue error
      | flush caller => exact .aside (by rw [pending, hqueue]; rfl) _ _ _
    · cases h
  | record =>
    simp only [step] at h
    split at h
    · next commit reply hloop =>
      obtain rfl := some.inj h
      exact .completed hloop
    · next commit reply error hloop =>
      obtain rfl := some.inj h
      exact .failed hloop
    · cases h
  | reply =>
    simp only [step] at h
    split at h
    · next hloop =>
      obtain rfl := some.inj h
      exact .replied hloop
    · cases h

/-! ## What is queued -/

/-- The largest version that was queued, counted or not. -/
def ceiling (s : CommitWriter) : ℕ :=
  match s.call with
  | .sent commit => max s.queuedVersion commit.version
  | _ => s.queuedVersion

/-- **The queue is first in, first out, and versions grow.** -/
structure Fifo (s : CommitWriter) : Prop where
  queued_eq : s.queued = s.writes.map Prod.fst ++ s.pending
  ordered : s.queued.Pairwise fun c d => c.version < d.version
  bounded : ∀ c ∈ s.queued, c.version ≤ s.ceiling
  fresh : ∀ c, s.call = .checked c → s.queuedVersion < c.version

theorem Fifo.le_queuedVersion (h : s.Fifo) (hcall : ∀ c, s.call ≠ .sent c) {c : Commit}
    (hc : c ∈ s.queued) : c.version ≤ s.queuedVersion := by
  have hle := h.bounded c hc
  unfold ceiling at hle
  split at hle
  · next commit hsent => exact absurd hsent (hcall commit)
  · exact hle

theorem Fifo.change (h : s.Fifo) (hchange : Change s a s') : s'.Fifo := by
  cases hchange with
  | nothing => exact h
  | aside hqueue => exact ⟨h.queued_eq.trans (congrArg _ hqueue.symm), h.ordered, h.bounded, h.fresh⟩
  | checked hidle hversion herror =>
    exact ⟨h.queued_eq, h.ordered, fun c hc => h.le_queuedVersion (by simp [hidle]) hc,
      fun c hc => PersistCall.checked.inj hc ▸ hversion⟩
  | refused hcall hloop =>
    exact ⟨h.queued_eq, h.ordered, fun c hc => h.le_queuedVersion (by simp [hcall]) hc, nofun⟩
  | @sent commit hcall hloop =>
    have hbelow : ∀ c ∈ s.queued, c.version < commit.version := fun c hc =>
      (h.le_queuedVersion (by simp [hcall]) hc).trans_lt (h.fresh commit hcall)
    refine ⟨?_, ?_, fun c hc => ?_, nofun⟩
    · rw [h.queued_eq]
      simp [pending, WriterMessage.commit?]
    · refine pairwise_append.mpr ⟨h.ordered, pairwise_singleton _ _, fun c hc d hd => ?_⟩
      exact mem_singleton.mp hd ▸ hbelow c hc
    · rcases mem_append.mp hc with hc | hc
      · exact (hbelow c hc).le.trans (le_max_right _ _)
      · exact mem_singleton.mp hc ▸ le_max_right _ _
  | @counted commit hcall =>
    refine ⟨h.queued_eq, h.ordered, fun c hc => ?_, fun c hc => ?_⟩
    · have hle := h.bounded c hc
      rw [ceiling, hcall] at hle
      unfold ceiling
      dsimp only
      split_ifs <;> exact hle
    · split_ifs at hc
  | returned hcall hreply =>
    exact ⟨h.queued_eq, h.ordered, fun c hc => h.le_queuedVersion (by simp [hcall]) hc, nofun⟩
  | wrote hloop hqueue error =>
    refine ⟨?_, h.ordered, h.bounded, h.fresh⟩
    rw [h.queued_eq]
    simp [pending, hqueue, WriterMessage.commit?]
  | stopped hloop hqueue error =>
    refine ⟨?_, h.ordered, h.bounded, h.fresh⟩
    rw [h.queued_eq, pending, hqueue]
    rfl
  | completed hloop => exact ⟨h.queued_eq, h.ordered, h.bounded, h.fresh⟩
  | failed hloop => exact ⟨h.queued_eq, h.ordered, h.bounded, h.fresh⟩
  | replied hloop => exact ⟨h.queued_eq, h.ordered, h.bounded, h.fresh⟩

/-! ## What is completed -/

/-- **Only what was written counts as completed.** -/
structure Counted (s : CommitWriter) : Prop where
  completed : s.completedVersion ≤ s.initialVersion ∨
    ∃ c ∈ s.applied, s.completedVersion ≤ c.version
  written : ∀ c reply, s.loop = .written c reply none → c ∈ s.applied

theorem mem_applied {c : Commit} : c ∈ s.applied ↔ (c, none) ∈ s.writes := by
  simp only [applied, mem_map, mem_filter, Option.isNone_iff_eq_none]
  exact ⟨fun ⟨w, ⟨hw, hnone⟩, hc⟩ => by rwa [← hc, ← hnone], fun h => ⟨_, ⟨h, rfl⟩, rfl⟩⟩

theorem Counted.change (h : s.Counted) (hchange : Change s a s') : s'.Counted := by
  cases hchange with
  | nothing => exact h
  | aside => exact ⟨h.completed, h.written⟩
  | checked => exact ⟨h.completed, h.written⟩
  | refused => exact ⟨h.completed, h.written⟩
  | sent => exact ⟨h.completed, h.written⟩
  | counted => exact ⟨h.completed, h.written⟩
  | returned => exact ⟨h.completed, h.written⟩
  | @wrote commit reply queue hloop hqueue error =>
    have hgrows : ∀ c, c ∈ s.applied → (c, none) ∈ s.writes ++ [(commit, error)] := fun c hc =>
      mem_append_left _ (mem_applied.mp hc)
    refine ⟨h.completed.imp_right fun ⟨c, hc, hle⟩ => ⟨c, mem_applied.mpr (hgrows c hc), hle⟩, ?_⟩
    intro c reply hwritten
    injection hwritten with hc _ herror
    exact mem_applied.mpr (mem_append_right _ (by rw [hc, herror]; exact mem_singleton_self _))
  | stopped hloop hqueue => exact ⟨h.completed, nofun⟩
  | @completed commit reply hloop =>
    refine ⟨?_, fun c r hwritten => ?_⟩
    · have hcommit := h.written commit reply hloop
      rcases le_total s.completedVersion commit.version with hle | hle
      · exact .inr ⟨commit, hcommit, by simp [hle]⟩
      · rw [max_eq_left hle]
        exact h.completed
    · dsimp only at hwritten
      split_ifs at hwritten
  | @failed commit reply error hloop =>
    refine ⟨h.completed, fun c r hwritten => ?_⟩
    dsimp only at hwritten
    split_ifs at hwritten
  | replied hloop => exact ⟨h.completed, nofun⟩

/-! ## One call at a time -/

/-- Commits on their way, from the queue to the reply. -/
def inFlight (s : CommitWriter) : ℕ :=
  s.pending.length + s.loop.busy.toNat + s.replyReady.toNat

/-- **In strict mode one commit is on its way**, and its call waits for it. -/
def OneInFlight (s : CommitWriter) : Prop :=
  s.durability = .strict → s.loop ≠ .stopped → s.inFlight ≤ s.call.handedOver.toNat

theorem OneInFlight.change (h : s.OneInFlight) (hchange : Change s a s') : s'.OneInFlight := by
  intro hstrict hrunning
  cases hchange with
  | nothing => exact h hstrict hrunning
  | aside hqueue =>
    have hle := h hstrict hrunning
    simp only [inFlight, pending, hqueue] at hle ⊢
    exact hle
  | checked hidle =>
    have hle := h hstrict hrunning
    rwa [hidle] at hle
  | refused hcall hloop => exact absurd hloop hrunning
  | sent hcall hloop =>
    have hle := h hstrict hrunning
    simp only [inFlight, pending, hcall, PersistCall.handedOver, toNat_false] at hle
    simp only [inFlight, pending, PersistCall.handedOver, toNat_true, filterMap_append,
      length_append]
    simp only [WriterMessage.commit?, filterMap_cons, filterMap_nil, length_singleton]
    omega
  | counted hcall =>
    have hle := h hstrict hrunning
    rw [hcall] at hle
    dsimp only at hstrict ⊢
    rwa [if_pos hstrict]
  | returned hcall hreply =>
    have hle := h hstrict hrunning
    have hready : s.replyReady = true := hreply.resolve_right hrunning
    simp only [inFlight, hready, hcall, PersistCall.handedOver, toNat_true] at hle
    simp only [inFlight, pending, PersistCall.handedOver, toNat_false] at hle ⊢
    omega
  | wrote hloop hqueue =>
    have hle := h hstrict (by simp [hloop])
    simp only [inFlight, pending, hqueue, hloop, filterMap_cons, WriterMessage.commit?,
      length_cons, LoopState.busy, toNat_false] at hle
    simp only [inFlight, pending, LoopState.busy, toNat_true]
    omega
  | stopped => exact absurd rfl hrunning
  | @completed commit reply hloop =>
    have hle := h hstrict (by simp [hloop])
    simp only [inFlight, pending, hloop, LoopState.busy, toNat_true] at hle
    cases reply <;> simp only [inFlight, pending, LoopState.busy, toNat_true, if_true,
      false_eq_true, if_false, toNat_false] <;> omega
  | @failed commit reply error hloop =>
    have hle := h hstrict (by simp [hloop])
    simp only [inFlight, pending, hloop, LoopState.busy, toNat_true] at hle
    cases reply <;> simp only [inFlight, pending, LoopState.busy, toNat_true, if_true,
      false_eq_true, if_false, toNat_false] <;> omega
  | replied hloop =>
    have hle := h hstrict (by simp [hloop])
    simp only [inFlight, pending, hloop, LoopState.busy, toNat_true] at hle
    simp only [inFlight, pending, LoopState.busy, toNat_true, toNat_false]
    omega

/-! ## No commit on its way while a write fails -/

/-- **A write fails only when no further commit is queued or about to be sent**, and the error flag is
not looked at between the failure and its being recorded. -/
def Quiet (s : CommitWriter) : Action → Prop
  | .receive (some _) => (s.queue.head?.bind WriterMessage.commit?).isSome →
      s.queue.tail.filterMap WriterMessage.commit? = [] ∧ s.call.checked? = none
  | .persist _ => s.call = .idle → s.loop.failed? = none
  | _ => True

instance (s : CommitWriter) : ∀ a, Decidable (s.Quiet a)
  | .receive (some _) => inferInstanceAs (Decidable (_ → _ ∧ _))
  | .receive none => .isTrue trivial
  | .persist _ => inferInstanceAs (Decidable (_ → _))
  | .send => .isTrue trivial
  | .count => .isTrue trivial
  | .receiveReply => .isTrue trivial
  | .flush _ => .isTrue trivial
  | .sendFlush _ => .isTrue trivial
  | .shutdown => .isTrue trivial
  | .record => .isTrue trivial
  | .reply => .isTrue trivial

/-- A step is quiet, or the mode is strict. -/
def Fits (s : CommitWriter) (a : Action) : Prop := s.durability = .strict ∨ s.Quiet a

instance (s : CommitWriter) (a : Action) : Decidable (s.Fits a) :=
  inferInstanceAs (Decidable (_ ∨ _))

/-- **In strict mode every step is quiet.** -/
theorem OneInFlight.quiet (h : s.OneInFlight) (hstrict : s.durability = .strict)
    (hstep : s.step a = some s') : s.Quiet a := by
  cases a with
  | persist commit =>
    intro hidle
    cases hloop : s.loop with
    | written c reply error =>
      have hle := h hstrict (by simp [hloop])
      simp [inFlight, hloop, hidle, LoopState.busy, PersistCall.handedOver] at hle
    | receiving => rfl
    | replying => rfl
    | stopped => rfl
  | receive error =>
    cases error with
    | none => trivial
    | some error =>
      intro hhead
      simp only [step] at hstep
      split at hstep
      · next message queue hloop hqueue =>
        have hle := h hstrict (by simp [hloop])
        obtain ⟨c, hc⟩ : ∃ c, message.commit? = some c := by
          rw [hqueue] at hhead
          exact Option.isSome_iff_exists.mp hhead
        simp only [inFlight, pending, hqueue, filterMap_cons, hc, length_cons] at hle
        have hover := toNat_le s.call.handedOver
        rw [hqueue, tail_cons]
        refine ⟨length_eq_zero_iff.mp (by omega), ?_⟩
        cases hcall : s.call with
        | checked commit =>
          rw [hcall] at hle
          simp [PersistCall.handedOver] at hle
        | idle => rfl
        | sent commit => rfl
        | waiting => rfl
      · cases hstep
  | send => trivial
  | count => trivial
  | receiveReply => trivial
  | flush caller => trivial
  | sendFlush caller => trivial
  | shutdown => trivial
  | record => trivial
  | reply => trivial

/-- No write has failed. -/
structure Healthy (s : CommitWriter) : Prop where
  writes : ∀ w ∈ s.writes, w.2 = none
  loop : s.loop.failed? = none

/-- Only the last write may have failed, and no commit will follow it. -/
structure Halted (s : CommitWriter) : Prop where
  writes : ∃ earlier last, s.writes = earlier ++ [last] ∧ ∀ w ∈ earlier, w.2 = none
  pending : s.pending = []
  call : s.call.checked? = none
  noticed : s.loop.failed? ≠ none ∨ s.writeError ≠ none

theorem Halted.change (h : s.Halted) (hquiet : s.Quiet a) (hchange : Change s a s') : s'.Halted := by
  obtain ⟨hwrites, hpending, hcall, hnoticed⟩ := h
  cases hchange with
  | nothing => exact ⟨hwrites, hpending, hcall, hnoticed⟩
  | aside hqueue => exact ⟨hwrites, hqueue.trans hpending, hcall, hnoticed⟩
  | checked hidle _ herror =>
    rcases hnoticed with hloop | hflag
    · exact absurd (hquiet hidle) hloop
    · exact absurd herror hflag
  | refused hchecked => exact nomatch hchecked ▸ hcall
  | sent hchecked => exact nomatch hchecked ▸ hcall
  | counted hsent =>
    refine ⟨hwrites, hpending, ?_, hnoticed⟩
    dsimp only
    split_ifs <;> rfl
  | returned => exact ⟨hwrites, hpending, rfl, hnoticed⟩
  | wrote hloop hqueue =>
    simp [CommitWriter.pending, hqueue, WriterMessage.commit?] at hpending
  | stopped hloop hqueue =>
    have hflag := hnoticed.resolve_left (by simp [hloop, LoopState.failed?])
    refine ⟨hwrites, ?_, hcall, .inr hflag⟩
    rwa [CommitWriter.pending, hqueue] at hpending
  | completed hloop =>
    exact ⟨hwrites, hpending, hcall,
      .inr (hnoticed.resolve_left (by simp [hloop, LoopState.failed?]))⟩
  | failed => exact ⟨hwrites, hpending, hcall, .inr nofun⟩
  | replied hloop =>
    exact ⟨hwrites, hpending, hcall,
      .inr (hnoticed.resolve_left (by simp [hloop, LoopState.failed?]))⟩

theorem Healthy.change (h : s.Healthy) (hquiet : s.Quiet a) (hchange : Change s a s') :
    s'.Healthy ∨ s'.Halted := by
  obtain ⟨hwrites, hloop⟩ := h
  cases hchange with
  | nothing => exact .inl ⟨hwrites, hloop⟩
  | aside => exact .inl ⟨hwrites, hloop⟩
  | checked => exact .inl ⟨hwrites, hloop⟩
  | refused => exact .inl ⟨hwrites, hloop⟩
  | sent => exact .inl ⟨hwrites, hloop⟩
  | counted => exact .inl ⟨hwrites, hloop⟩
  | returned => exact .inl ⟨hwrites, hloop⟩
  | @wrote commit reply queue _ hqueue error =>
    cases error with
    | none =>
      refine .inl ⟨fun w hw => ?_, rfl⟩
      rcases mem_append.mp hw with hw | hw
      · exact hwrites w hw
      · rw [mem_singleton.mp hw]
    | some error =>
      -- nothing else is on its way
      obtain ⟨hrest, hcall⟩ := hquiet (by simp [hqueue, WriterMessage.commit?])
      rw [hqueue, tail_cons] at hrest
      exact .inr ⟨⟨s.writes, _, rfl, hwrites⟩, hrest, hcall, .inl nofun⟩
  | stopped => exact .inl ⟨hwrites, rfl⟩
  | @completed commit reply _ =>
    refine .inl ⟨hwrites, ?_⟩
    cases reply <;> rfl
  | failed hfailed => exact nomatch hfailed ▸ hloop
  | replied => exact .inl ⟨hwrites, rfl⟩

/-! ## Every run -/

/-- **The store holds a prefix of the history**: what was applied starts what was queued, in the order
of versions; no write succeeds after one has failed; and nothing counts as completed unless all
before it was applied. -/
structure Durable (s : CommitWriter) : Prop where
  starts : s.applied <+: s.queued
  ordered : s.queued.Pairwise fun c d => c.version < d.version
  stops : ∀ earlier w later, s.writes = earlier ++ w :: later → w.2 ≠ none → ∀ v ∈ later, v.2 ≠ none
  completed : s.completedVersion ≤ s.initialVersion ∨ ∃ earlier c later,
    s.queued = earlier ++ c :: later ∧ (∀ d ∈ earlier, d ∈ s.applied) ∧
      s.completedVersion ≤ c.version

/-- What holds of every state of a run. -/
structure Inv (s : CommitWriter) : Prop where
  fifo : s.Fifo
  counted : s.Counted
  inFlight : s.OneInFlight
  health : s.Healthy ∨ s.Halted

theorem Inv.step (h : s.Inv) (hfits : s.Fits a) (hstep : s.step a = some s') : s'.Inv := by
  have hquiet : s.Quiet a := hfits.elim (fun hstrict => h.inFlight.quiet hstrict hstep) id
  have hchange := step_cases hstep
  exact ⟨h.fifo.change hchange, h.counted.change hchange, h.inFlight.change hchange,
    h.health.elim (fun h => h.change hquiet hchange) fun h => .inr (h.change hquiet hchange)⟩

theorem inv_spawn (initialVersion : ℕ) (durability : FjallDurabilityMode) :
    (spawn initialVersion durability).Inv where
  fifo := ⟨rfl, List.Pairwise.nil, nofun, nofun⟩
  counted := ⟨.inl le_rfl, nofun⟩
  inFlight := fun _ _ => le_rfl
  health := .inl ⟨nofun, rfl⟩

/-- Every step of the run fits. -/
def FitsAll (s : CommitWriter) : List Action → Prop
  | [] => True
  | a :: as => s.Fits a ∧ ((s.step a).getD s).FitsAll as

instance instDecidableFitsAll : ∀ (s : CommitWriter) (as : List Action), Decidable (s.FitsAll as)
  | _, [] => .isTrue trivial
  | s, a :: as =>
    have := instDecidableFitsAll ((s.step a).getD s) as
    inferInstanceAs (Decidable (_ ∧ _))

theorem Inv.run (h : s.Inv) {as : List Action} (hfits : s.FitsAll as) : (s.run as).Inv := by
  induction as generalizing s with
  | nil => exact h
  | cons a as ih =>
    refine ih ?_ hfits.2
    rcases hstep : s.step a with _ | t
    · exact h
    exact h.step hfits.1 hstep

/-- At most the last write has failed. -/
theorem Inv.writes (h : s.Inv) : (∀ w ∈ s.writes, w.2 = none) ∨
    ∃ earlier last, s.writes = earlier ++ [last] ∧ ∀ w ∈ earlier, w.2 = none :=
  h.health.imp Healthy.writes Halted.writes

theorem applied_of_none (h : ∀ w ∈ s.writes, w.2 = none) : s.applied = s.writes.map Prod.fst := by
  unfold applied
  rw [filter_eq_self.mpr fun w hw => by rw [h w hw]; rfl]

theorem Inv.applied_starts (h : s.Inv) : s.applied <+: s.writes.map Prod.fst := by
  rcases h.writes with hok | ⟨earlier, last, hwrites, hok⟩
  · exact (applied_of_none hok).symm ▸ prefix_rfl
  unfold applied
  rw [hwrites, filter_append, filter_eq_self.mpr fun w hw => by rw [hok w hw]; rfl,
    map_append, map_append, prefix_append_right_inj]
  rcases hlast : last.2 with _ | error
  · simp [hlast]
  simp [hlast]

theorem Inv.durable (h : s.Inv) : s.Durable := by
  have hstarts : s.applied <+: s.queued :=
    h.applied_starts.trans (h.fifo.queued_eq ▸ prefix_append _ _)
  refine ⟨hstarts, h.fifo.ordered, fun earlier w later heq hfailed v hv => ?_, ?_⟩
  · rcases h.writes with hok | ⟨ws, last, hwrites, hok⟩
    · exact absurd (hok w (heq ▸ mem_append_right _ mem_cons_self)) hfailed
    -- the one that failed is the last
    rcases eq_nil_or_concat later with rfl | ⟨later, x, rfl⟩
    · cases hv
    · rw [hwrites, concat_eq_append, ← cons_append, ← append_assoc] at heq
      have hmem := (append_inj' heq rfl).1 ▸ mem_append_right earlier
        (mem_cons_self (a := w) (l := later))
      exact absurd (hok w hmem) hfailed
  · refine h.counted.completed.imp_right fun ⟨c, hc, hle⟩ => ?_
    obtain ⟨earlier, later, hsplit⟩ := append_of_mem hc
    obtain ⟨rest, hrest⟩ := hstarts
    refine ⟨earlier, c, later ++ rest, ?_, fun d hd => ?_, hle⟩
    · rw [← hrest, hsplit, append_assoc, cons_append]
    · rw [hsplit]
      exact mem_append_left _ hd

/-- **What was written is a prefix of what was queued** in every state of every run in strict mode, and
in relaxed mode as long as no commit is on its way while a write fails. -/
theorem durable_of_fits (initialVersion : ℕ) (durability : FjallDurabilityMode) (as : List Action)
    (h : (spawn initialVersion durability).FitsAll as) :
    ((spawn initialVersion durability).run as).Durable :=
  ((inv_spawn initialVersion durability).run h).durable

/-! ## Two queued commits -/

/-- A commit that asserts one row. -/
def oneRow (version : ℕ) : Commit :=
  ⟨version, [], [⟨.ofByte 7, [.bool true], .assert⟩]⟩

/-- A commit from the call to the queue. -/
def queueCommit (version : ℕ) : List Action := [.persist (oneRow version), .send, .count]

/-- Two commits are queued; the write of the first fails and the write of the second does not. -/
def secondWritten : List Action :=
  queueCommit 1 ++ queueCommit 2 ++ [.receive (some "disk full"), .record, .receive none, .record]

/-- **The thread writes a commit after an earlier one has failed**, and counts it as completed. -/
theorem later_commit_written : ¬ ((spawn 0 .relaxed).run secondWritten).Durable := by
  intro h
  have happlied : ((spawn 0 .relaxed).run secondWritten).applied = [oneRow 2] := by decide +kernel
  have hqueued : ((spawn 0 .relaxed).run secondWritten).queued = [oneRow 1, oneRow 2] := by
    decide +kernel
  have hstarts := h.starts
  rw [happlied, hqueued] at hstarts
  have hhead := (cons_prefix_cons.mp hstarts).1
  exact absurd (congrArg Commit.version hhead) (by decide)

/-- The first is written before the second is sent, and the write of the second fails. -/
def secondFails : List Action :=
  queueCommit 1 ++ [.receive none, .record] ++ queueCommit 2 ++
    [.receive (some "disk full"), .record, .persist (oneRow 3)]

theorem durable_of_fits_secondFails : ((spawn 0 .relaxed).run secondFails).Durable :=
  durable_of_fits 0 .relaxed secondFails (by decide +kernel)

end CommitWriter

end Mica
