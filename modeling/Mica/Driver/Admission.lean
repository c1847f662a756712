import Mathlib.Data.List.Forall2
import Mathlib.Data.Nat.Basic
import Mathlib.Logic.Function.Basic

/-!
# Driver/Admission — slots and those who wait for one

Tasks and external requests are admitted to a bounded number of slots.  A future that finds no slot, or
others in line, registers at the back; only the front of the line is admitted, and whoever may have
made room for it wakes it.  `DispatchAdmission` and `ExternalRequestAcquire` are the same future
over two states; parallel workers take slots of the first without waiting.

`World` adds what is outside: the futures, the permits and reservations that are held, the wakers
that an operation has taken and not yet called, and the order in which futures first waited and were
admitted.
-/

namespace Mica

/-- What a waker wakes; `will_wake` compares. -/
abbrev Waker := ℕ

structure TaskWaiter where
  id : UInt64
  waker : Waker
  deriving DecidableEq

/-- `ExternalAdmissionState`, and the part of `AdmissionState` that it shares. -/
structure Admission where
  occupied : ℕ
  nextWaiterId : UInt64
  waiters : List TaskWaiter

/-- A future, `ExternalRequestAcquire` or `DispatchAdmission`. -/
structure Acquire where
  waiterId : Option UInt64
  completed : Bool

/-- What a poll comes to: whether it is ready, and whom it wakes. -/
structure Polled where
  state : Admission
  acquire : Acquire
  admitted : Bool
  wake : Option Waker

namespace Admission

/-- `external_waiter_waker`, `next_task_waker`. -/
def nextWaker (capacity : ℕ) (s : Admission) : Option Waker :=
  if s.occupied < capacity then s.waiters.head?.map TaskWaiter.waker else none

def position (s : Admission) (id : UInt64) : Option ℕ := s.waiters.findIdx? fun w => w.id == id

/-- `poll`; `none` if it panics. -/
def poll (capacity : ℕ) (s : Admission) (a : Acquire) (waker : Waker) : Option Polled :=
  if a.completed then none
  else
    match a.waiterId with
    | some id =>
      match s.position id with
      | none => none
      | some position =>
        if position = 0 ∧ s.occupied < capacity then
          let s' := { s with waiters := s.waiters.tail, occupied := s.occupied + 1 }
          some ⟨s', ⟨none, true⟩, true, s'.nextWaker capacity⟩
        else
          some ⟨{ s with waiters := s.waiters.modify position fun w => { w with waker := waker } },
            a, false,
            none⟩
    | none =>
      if s.waiters.isEmpty ∧ s.occupied < capacity then
        some ⟨{ s with occupied := s.occupied + 1 }, ⟨none, true⟩, true, none⟩
      else
        some ⟨{ s with
            nextWaiterId := s.nextWaiterId + 1
            waiters := s.waiters ++ [⟨s.nextWaiterId, waker⟩] },
          ⟨some s.nextWaiterId, false⟩, false, none⟩

/-- `drop` of a future. -/
def dropAcquire (capacity : ℕ) (s : Admission) (a : Acquire) : Admission × Option Waker :=
  if a.completed then (s, none)
  else
    match a.waiterId with
    | none => (s, none)
    | some id =>
      match s.position id with
      | none => (s, none)
      | some position =>
        let s' := { s with waiters := s.waiters.eraseIdx position }
        (s', if position = 0 then s'.nextWaker capacity else none)

/-- `release_workers`, `release_parallel_workers` and the `drop` of a permit. -/
def release (capacity : ℕ) (s : Admission) (workers : ℕ) : Admission × Option Waker :=
  let s' := { s with occupied := s.occupied - workers }
  (s', s'.nextWaker capacity)

end Admission

/-- `CpuAdmission`, without its state. -/
structure CpuAdmission where
  dispatchCapacity : ℕ
  relationParallelism : ℕ

/-- Whether `try_reserve_parallel` admits additional workers, once it has the lock. -/
def CpuAdmission.admitsParallel (c : CpuAdmission) (s : Admission)
    (parallelOccupied workers : ℕ) : Bool :=
  s.waiters.isEmpty && decide (parallelOccupied + workers < c.relationParallelism) &&
    decide (s.occupied + workers + 1 ≤ c.dispatchCapacity)

/-! ## The world around an admission -/

structure World where
  state : Admission
  parallelOccupied : ℕ
  /-- The futures that have not been dropped. -/
  acquires : ℕ → Option Acquire
  permits : ℕ
  /-- The workers of each reservation that is held. -/
  reserved : List ℕ
  /-- The wakers that have been taken and are still to be called. -/
  wakes : List Waker
  /-- The futures that waited, in the order in which they first did. -/
  waited : List ℕ
  /-- Those of them that were admitted, in that order. -/
  admitted : List ℕ
  /-- The waker of the last poll of a future. -/
  lastWaker : ℕ → Waker
  /-- Whether a future has been woken since it last polled. -/
  woken : ℕ → Bool

inductive AdmissionEvent where
  | poll (future : ℕ) (waker : Waker)
  | dropAcquire (future : ℕ)
  | dropPermit
  | reserveParallel (workers : ℕ)
  | releaseParallel (workers : ℕ)
  | wake (waker : Waker)

namespace World

/-- Nobody has polled, and any number of futures may be made. -/
def start : World where
  state := ⟨0, 0, []⟩
  parallelOccupied := 0
  acquires := fun _ => some ⟨none, false⟩
  permits := 0
  reserved := []
  wakes := []
  waited := []
  admitted := []
  lastWaker := fun _ => 0
  woken := fun _ => false

/-- The world after a poll of the future `f`, which was `a`. -/
def afterPoll (w : World) (f : ℕ) (waker : Waker) (a : Acquire) (p : Polled) : World :=
  { w with
    state := p.state
    acquires := Function.update w.acquires f (some p.acquire)
    permits := if p.admitted then w.permits + 1 else w.permits
    wakes := w.wakes ++ p.wake.toList
    waited := if a.waiterId.isNone ∧ p.admitted = false then w.waited ++ [f] else w.waited
    admitted := if a.waiterId.isSome ∧ p.admitted then w.admitted ++ [f] else w.admitted
    lastWaker := Function.update w.lastWaker f waker
    woken := Function.update w.woken f false }

/-- A poll of a future; `none` if it has been dropped or panics. -/
def poll (capacity : ℕ) (w : World) (f : ℕ) (waker : Waker) : Option World :=
  (w.acquires f).bind fun a => (w.state.poll capacity a waker).map (w.afterPoll f waker a)

/-- The drop of a future. -/
def dropAcquire (capacity : ℕ) (w : World) (f : ℕ) : Option World :=
  (w.acquires f).map fun a =>
    { w with
      state := (w.state.dropAcquire capacity a).1
      acquires := Function.update w.acquires f none
      wakes := w.wakes ++ (w.state.dropAcquire capacity a).2.toList }

/-- The drop of a permit that is held. -/
def dropPermit (capacity : ℕ) (w : World) : Option World :=
  if w.permits = 0 then none
  else
    some { w with
      state := (w.state.release capacity 1).1
      permits := w.permits - 1
      wakes := w.wakes ++ (w.state.release capacity 1).2.toList }

/-- The call of a waker that has been taken. -/
def wake (w : World) (waker : Waker) : Option World :=
  if waker ∈ w.wakes then
    some { w with
      wakes := w.wakes.erase waker
      woken := fun f => w.woken f || w.lastWaker f = waker }
  else none

/-- A step of `ExternalRequestAdmission`. -/
def externalStep (capacity : ℕ) (w : World) : AdmissionEvent → Option World
  | .poll f waker => w.poll capacity f waker
  | .dropAcquire f => w.dropAcquire capacity f
  | .dropPermit => w.dropPermit capacity
  | .wake waker => w.wake waker
  | .reserveParallel _ => none
  | .releaseParallel _ => none

/-- A reservation; nothing changes if it is refused, as when the lock is contended. -/
def reserveParallel (c : CpuAdmission) (w : World) (workers : ℕ) : World :=
  if c.admitsParallel w.state w.parallelOccupied workers then
    { w with
      state := { w.state with occupied := w.state.occupied + workers }
      parallelOccupied := w.parallelOccupied + workers
      reserved := workers :: w.reserved }
  else w

/-- The release of a reservation that is held. -/
def releaseParallel (c : CpuAdmission) (w : World) (workers : ℕ) : Option World :=
  if workers ∈ w.reserved then
    some { w with
      state := (w.state.release c.dispatchCapacity workers).1
      parallelOccupied := w.parallelOccupied - workers
      reserved := w.reserved.erase workers
      wakes := w.wakes ++ (w.state.release c.dispatchCapacity workers).2.toList }
  else none

/-- A step of `CpuAdmission`. -/
def cpuStep (c : CpuAdmission) (w : World) : AdmissionEvent → Option World
  | .poll f waker => w.poll c.dispatchCapacity f waker
  | .dropAcquire f => w.dropAcquire c.dispatchCapacity f
  | .dropPermit => w.dropPermit c.dispatchCapacity
  | .wake waker => w.wake waker
  | .reserveParallel workers => some (w.reserveParallel c workers)
  | .releaseParallel workers => w.releaseParallel c workers

/-- A number for a new waiter that no waiter in line has. -/
def IdFree (w : World) : Prop := ∀ e ∈ w.state.waiters, e.id ≠ w.state.nextWaiterId

/-- A future that does not wait yet polls only while the next number is free. -/
def Fresh (w : World) : AdmissionEvent → Prop
  | .poll f _ => (∃ a, w.acquires f = some a ∧ a.waiterId = none) → w.IdFree
  | _ => True

/-- The worlds that steps under a condition lead to. -/
inductive Reaches (step : World → AdmissionEvent → Option World) (ok : World → AdmissionEvent → Prop) :
    World → Prop
  | start : Reaches step ok start
  | next {w w' : World} {e : AdmissionEvent} (h : Reaches step ok w) (hok : ok w e)
      (hstep : step w e = some w') : Reaches step ok w'

/-- The future waits. -/
def Waits (w : World) (f : ℕ) : Prop := ∃ id, w.acquires f = some ⟨some id, false⟩

/-- Futures are admitted in the order in which they first waited: who waited before is admitted
before, or does not wait any more. -/
def InOrder (w : World) : Prop :=
  w.admitted.Sublist w.waited ∧
    ∀ f g, [f, g].Sublist w.waited → g ∈ w.admitted → ¬w.Waits f

end World

end Mica
