import Luwu.Lib.Count
import Luwu.Scheduler.Basic

/-!
# Stopping

A worker of an `IOManager` leaves `run` in two stages.  When it finds no task it resumes its idle
fiber, which tests `stopping ()`: three reads (the timer set, `m_pendingEventCount`, and under
`m_mutex` the queue and the active count) that are not made at one moment.  When all three say yes
the idle fiber ends, and the worker goes on taking tasks until it finds none again; it does not
test a second time.

The steps are the reads, the removal of expired timers, every push, the critical section of `run`
(`m_mutex` is held until the active count is incremented) and the changes of the counters.  Of
tasks only the thread they are pinned to matters, of timers and events how many there are.
-/

namespace Luwu

open Lib

namespace Stop

inductive Pc where
  /-- About to lock `m_mutex` in `run`. -/
  | top
  /-- A task was taken; `m_mutex` is still locked. -/
  | took
  /-- Executing a task. -/
  | running
  /-- In a task's `cancelEvent`, after the trigger and before `--m_pendingEventCount`. -/
  | cancelling
  /-- The task has come back. -/
  | finished
  /-- There was no task. -/
  | noTask
  /-- In the idle fiber, about to test `stopping ()`. -/
  | test
  /-- `getNextTimer` has found no timer. -/
  | noTimer
  /-- And `m_pendingEventCount` was 0. -/
  | noEvent
  /-- The test has said no: in `epoll_wait`. -/
  | waiting
  /-- So many callbacks of expired timers are still to be scheduled, then the events are handled. -/
  | handling (cbs : Nat)
  /-- An event was triggered, before `--m_pendingEventCount`. -/
  | triggered
  /-- Out of `run`. -/
  | left
deriving DecidableEq, Repr

/-- A worker, and whether its idle fiber is `TERM`. -/
structure Worker where
  pc : Pc
  term : Bool
deriving DecidableEq, Repr

end Stop

/-- `n` workers; the callbacks of tasks are of type `κ`. -/
structure Stop (n : Nat) (κ : Type) where
  workers : Fin n → Stop.Worker
  /-- `m_fibers`. -/
  queue : List (Scheduler.SchedulerTask κ)
  /-- `m_mutex` is locked by a worker that has taken a task. -/
  locked : Bool
  /-- `m_activeThreadCount`. -/
  active : Nat
  /-- The size of `m_timers`. -/
  timers : Nat
  /-- The events that are armed. -/
  armed : Nat
  /-- `m_pendingEventCount`. -/
  pending : Nat
  /-- `m_stopping`. -/
  stopping : Bool

namespace Stop

variable {n : Nat} {κ : Type}

def init : Stop n κ :=
  { workers := fun _ => ⟨.top, false⟩, queue := [], locked := false, active := 0, timers := 0
    armed := 0, pending := 0, stopping := false }

def setPc (s : Stop n κ) (w : Fin n) (pc : Pc) : Stop n κ :=
  { s with workers := Function.update s.workers w { s.workers w with pc } }

/-- The idle fiber of `w` ends, and `w` is back in `run`. -/
def endIdle (s : Stop n κ) (w : Fin n) : Stop n κ :=
  { s with workers := Function.update s.workers w ⟨.top, true⟩ }

def push (s : Stop n κ) (t : Scheduler.SchedulerTask κ) : Stop n κ :=
  { s with queue := s.queue ++ [t] }

inductive Op (n : Nat) (κ : Type) where
  /-- A thread that is no worker schedules a task, adds a timer, registers an event. -/
  | push (t : Scheduler.SchedulerTask κ)
  | addTimer
  | addEvent
  /-- `m_stopping = true` in `stop ()`. -/
  | stop
  | dequeue (w : Fin n)
  /-- `++m_activeThreadCount`, and `m_mutex` is unlocked. -/
  | activate (w : Fin n)
  /-- What the task that `w` executes does. -/
  | taskPush (w : Fin n) (t : Scheduler.SchedulerTask κ)
  | taskAddTimer (w : Fin n)
  | taskCancelTimer (w : Fin n)
  | taskAddEvent (w : Fin n)
  | taskDelEvent (w : Fin n)
  | taskCancelEvent (w : Fin n) (t : Scheduler.SchedulerTask κ)
  | taskCancelled (w : Fin n)
  /-- The task yields or ends. -/
  | finish (w : Fin n)
  /-- `--m_activeThreadCount`. -/
  | deactivate (w : Fin n)
  /-- Without a task: resume the idle fiber, or leave. -/
  | idle (w : Fin n)
  /-- The three reads of `stopping ()`. -/
  | readTimers (w : Fin n)
  | readPending (w : Fin n)
  | readQueue (w : Fin n)
  /-- `listExpiredCb`: `once` timers are removed, `again` recurring ones are armed again. -/
  | expire (w : Fin n) (once again : Nat)
  /-- `scheduler (cb)` for the next of the callbacks. -/
  | pushCb (w : Fin n) (t : Scheduler.SchedulerTask κ)
  /-- `triggerEvent` for a reported event. -/
  | trigger (w : Fin n) (t : Scheduler.SchedulerTask κ)
  | triggered (w : Fin n)
  /-- The idle fiber yields. -/
  | yield (w : Fin n)

def step (s : Stop n κ) : Op n κ → Option (Stop n κ)
  | .push t => if !s.stopping && !s.locked then some (s.push t) else none
  | .addTimer => if !s.stopping then some { s with timers := s.timers + 1 } else none
  | .addEvent =>
    if !s.stopping then some { s with armed := s.armed + 1, pending := s.pending + 1 } else none
  | .stop => some { s with stopping := true }
  | .dequeue w =>
    if (s.workers w).pc = .top ∧ s.locked = false then
      match Scheduler.take w s.queue with
      | some (_, rest) => some ({ s with queue := rest, locked := true }.setPc w .took)
      | none => some (s.setPc w .noTask)
    else none
  | .activate w =>
    if (s.workers w).pc = .took then
      some ({ s with active := s.active + 1, locked := false }.setPc w .running)
    else none
  | .taskPush w t =>
    if (s.workers w).pc = .running ∧ s.locked = false then some (s.push t) else none
  | .taskAddTimer w =>
    if (s.workers w).pc = .running then some { s with timers := s.timers + 1 } else none
  | .taskCancelTimer w =>
    if (s.workers w).pc = .running ∧ 0 < s.timers then some { s with timers := s.timers - 1 }
    else none
  | .taskAddEvent w =>
    if (s.workers w).pc = .running then
      some { s with armed := s.armed + 1, pending := s.pending + 1 }
    else none
  | .taskDelEvent w =>
    if (s.workers w).pc = .running ∧ 0 < s.armed then
      some { s with armed := s.armed - 1, pending := s.pending - 1 }
    else none
  | .taskCancelEvent w t =>
    if (s.workers w).pc = .running ∧ 0 < s.armed ∧ s.locked = false then
      some (({ s with armed := s.armed - 1 }.push t).setPc w .cancelling)
    else none
  | .taskCancelled w =>
    if (s.workers w).pc = .cancelling then
      some ({ s with pending := s.pending - 1 }.setPc w .running)
    else none
  | .finish w => if (s.workers w).pc = .running then some (s.setPc w .finished) else none
  | .deactivate w =>
    if (s.workers w).pc = .finished then
      some ({ s with active := s.active - 1 }.setPc w .top)
    else none
  | .idle w =>
    if (s.workers w).pc = .noTask then
      some (s.setPc w (if (s.workers w).term then .left else .test))
    else none
  | .readTimers w =>
    if (s.workers w).pc = .test then
      some (s.setPc w (if s.timers = 0 then .noTimer else .waiting))
    else none
  | .readPending w =>
    if (s.workers w).pc = .noTimer then
      some (s.setPc w (if s.pending = 0 then .noEvent else .waiting))
    else none
  | .readQueue w =>
    if (s.workers w).pc = .noEvent ∧ s.locked = false then
      if s.stopping = true ∧ s.queue = [] ∧ s.active = 0 then some (s.endIdle w)
      else some (s.setPc w .waiting)
    else none
  | .expire w once again =>
    if (s.workers w).pc = .waiting ∧ once + again ≤ s.timers then
      some ({ s with timers := s.timers - once }.setPc w (.handling (once + again)))
    else none
  | .pushCb w t =>
    match (s.workers w).pc with
    | .handling (k + 1) =>
      if s.locked = false then some ((s.push t).setPc w (.handling k)) else none
    | _ => none
  | .trigger w t =>
    if (s.workers w).pc = .handling 0 ∧ 0 < s.armed ∧ s.locked = false then
      some (({ s with armed := s.armed - 1 }.push t).setPc w .triggered)
    else none
  | .triggered w =>
    if (s.workers w).pc = .triggered then
      some ({ s with pending := s.pending - 1 }.setPc w (.handling 0))
    else none
  | .yield w => if (s.workers w).pc = .handling 0 then some (s.setPc w .top) else none

end Stop

end Luwu
