import Mathlib.Logic.Function.Basic
import Luwu.Lib.Prog
import Luwu.Lib.Run

/-!
# The scheduler

Every worker thread runs the loop of `Scheduler::run`: take a task from the queue under `m_mutex`,
resume its fiber, and come back when the fiber yields.  The steps of a worker are the critical
section, `Fiber::resume`, the change of `m_state` in `Fiber::yield`, the `swapcontext` that saves
the fiber's context and returns to the loop, and the bookkeeping after it.  A running fiber that
wants to be continued registers itself first: in the queue, with an event, or with a timer.

Callbacks are of type `κ`; worker threads are identified by their thread ids.
-/

namespace Luwu

open Lib

inductive FiberState where
  | ready
  | running
  | term
deriving DecidableEq, Repr

/-- `m_state`, and whether `m_context` is the point where the fiber is to be continued. -/
structure Fiber where
  state : FiberState
  saved : Bool
deriving DecidableEq, Repr

/-- A fiber after its constructor: `makecontext` has prepared its context. -/
def Fiber.new : Fiber := ⟨.ready, true⟩

namespace Scheduler

inductive FiberId where
  /-- A fiber that was scheduled, or that was made for a callback. -/
  | task (n : Nat)
  /-- The `idle_fiber` of a worker. -/
  | idle (w : Nat)
deriving DecidableEq, Repr

inductive Body (κ : Type) where
  | fiber (n : Nat)
  | cb (f : κ)
deriving DecidableEq, Repr

/-- `SchedulerTask`; no thread is `-1`. -/
structure SchedulerTask (κ : Type) where
  body : Body κ
  thread : Option Nat := none
deriving DecidableEq, Repr

/-- Where a worker is in its loop. -/
inductive Pc (κ : Type) where
  /-- About to lock `m_mutex`. -/
  | top
  /-- A task was taken. -/
  | got (b : Body κ)
  /-- There was none. -/
  | noTask
  /-- Executing the fiber, which may have registered itself since it was resumed. -/
  | running (f : FiberId) (registered : Bool)
  /-- In the fiber's `yield`, before its `swapcontext`. -/
  | yielding (f : FiberId)
  /-- Back in the loop. -/
  | returned (f : FiberId)
  /-- Out of the loop. -/
  | left
deriving DecidableEq, Repr

end Scheduler

structure Scheduler (κ : Type) where
  /-- `m_fibers`. -/
  queue : List (Scheduler.SchedulerTask κ)
  /-- The fibers that an event or a timer holds. -/
  waiting : List Nat
  workers : Nat → Scheduler.Pc κ
  fibers : Scheduler.FiberId → Fiber
  /-- The fibers made so far. -/
  nextFiber : Nat
  /-- `m_activeThreadCount`. -/
  active : Int

namespace Scheduler

variable {κ : Type}

inductive Fault where
  /-- `LUWU_ASSERT (m_state == READY)` of `resume`. -/
  | resumeAssert
  /-- `LUWU_ASSERT (m_state == TERM || m_state == RUNNING)` of `yield`. -/
  | yieldAssert
deriving DecidableEq, Repr

abbrev M (κ : Type) := Prog Fault Empty (Scheduler κ)

def init : Scheduler κ :=
  { queue := [], waiting := [], workers := fun _ => .top, fibers := fun _ => .new, nextFiber := 0
    active := 0 }

def setWorker (s : Scheduler κ) (w : Nat) (pc : Pc κ) : Scheduler κ :=
  { s with workers := Function.update s.workers w pc }

def setFiber (s : Scheduler κ) (f : FiberId) (v : Fiber) : Scheduler κ :=
  { s with fibers := Function.update s.fibers f v }

/-- `scheduler (f, thread)`. -/
def push (s : Scheduler κ) (t : SchedulerTask κ) : Scheduler κ := { s with queue := s.queue ++ [t] }

/-- The scan of the queue by the thread `w`: the first task that is not pinned to another thread,
and the queue without it. -/
def take (w : Nat) : List (SchedulerTask κ) → Option (SchedulerTask κ × List (SchedulerTask κ))
  | [] => none
  | t :: ts =>
    if t.thread ≠ none ∧ t.thread ≠ some w then
      (take w ts).map fun r => (r.1, t :: r.2)
    else some (t, ts)

/-- The critical section of `run`. -/
def dequeue (w : Nat) : M κ Unit :=
  Prog.modify fun s =>
    match take w s.queue with
    | some (t, rest) => { s with queue := rest, active := s.active + 1 }.setWorker w (.got t.body)
    | none => s.setWorker w .noTask

/-- `Fiber::resume ()` by the worker `w`. -/
def resumeFiber (w : Nat) (f : FiberId) : M κ Unit := fun s =>
  if (s.fibers f).state ≠ .ready then .fault .resumeAssert
  else .ok () ((s.setFiber f ⟨.running, false⟩).setWorker w (.running f false))

/-- The worker goes on with what it has: the task's fiber, a new fiber for the task's callback, or
its idle fiber, whose end is the end of the loop. -/
def resume (w : Nat) : M κ Unit := fun s =>
  match s.workers w with
  | .got (.fiber n) => resumeFiber w (.task n) s
  | .got (.cb _) =>
    resumeFiber w (.task s.nextFiber)
      { s.setFiber (.task s.nextFiber) .new with nextFiber := s.nextFiber + 1 }
  | .noTask =>
    if (s.fibers (.idle w)).state = .term then .ok () (s.setWorker w .left)
    else resumeFiber w (.idle w) s
  | _ => .ok () s

/-- `Fiber::yield ()` up to its `swapcontext`. -/
def yieldFiber (w : Nat) (f : FiberId) : M κ Unit := fun s =>
  match (s.fibers f).state with
  | .ready => .fault .yieldAssert
  | .running =>
    .ok () ((s.setFiber f { s.fibers f with state := .ready }).setWorker w (.yielding f))
  | .term => .ok () (s.setWorker w (.yielding f))

/-- Where a fiber registers itself before it yields. -/
inductive Registration where
  /-- `scheduler (Fiber::GetThis (), thread)`. -/
  | queue (thread : Option Nat)
  /-- `addEvent` without a callback, or the timer of the sleep hook. -/
  | wait
deriving DecidableEq, Repr

/-- The atomic steps. -/
inductive Op (κ : Type) where
  /-- Some thread schedules a callback. -/
  | pushCb (f : κ) (thread : Option Nat)
  /-- Some thread schedules a new fiber. -/
  | pushFiber (thread : Option Nat)
  /-- The event or the timer that holds the fiber is due: the fiber is scheduled. -/
  | trigger (n : Nat)
  | dequeue (w : Nat)
  | resume (w : Nat)
  /-- The fiber that `w` executes registers itself. -/
  | register (w : Nat) (r : Registration)
  /-- The fiber that `w` executes calls `yield ()`. -/
  | yield (w : Nat)
  /-- Its function has returned: `MainFunc` sets `TERM` and calls `yield ()`. -/
  | finish (w : Nat)
  /-- The `swapcontext` of `yield`. -/
  | save (w : Nat)
  /-- `--m_activeThreadCount`, and on to the next round. -/
  | done (w : Nat)

def exec : Op κ → M κ Unit
  | .pushCb f thread => Prog.modify fun s => s.push { body := .cb f, thread }
  | .pushFiber thread => Prog.modify fun s =>
    { (s.setFiber (.task s.nextFiber) .new).push { body := .fiber s.nextFiber, thread } with
      nextFiber := s.nextFiber + 1 }
  | .trigger n => Prog.modify fun s =>
    { s with waiting := s.waiting.erase n }.push { body := .fiber n }
  | .dequeue w => Scheduler.dequeue w
  | .resume w => Scheduler.resume w
  | .register w r => Prog.modify fun s =>
    match s.workers w with
    | .running (.task n) _ =>
      match r with
      | .queue thread => (s.push { body := .fiber n, thread }).setWorker w (.running (.task n) true)
      | .wait => { s with waiting := n :: s.waiting }.setWorker w (.running (.task n) true)
    | _ => s
  | .yield w => fun s =>
    match s.workers w with
    | .running f _ => yieldFiber w f s
    | _ => .ok () s
  | .finish w => fun s =>
    match s.workers w with
    | .running f _ => yieldFiber w f (s.setFiber f { s.fibers f with state := .term })
    | _ => .ok () s
  | .save w => Prog.modify fun s =>
    match s.workers w with
    | .yielding f => (s.setFiber f { s.fibers f with saved := true }).setWorker w (.returned f)
    | _ => s
  | .done w => Prog.modify fun s =>
    match s.workers w with
    | .returned (.task _) => { s with active := s.active - 1 }.setWorker w .top
    | .returned (.idle _) => s.setWorker w .top
    | _ => s

/-- When a step can be taken, by fibers that follow the protocol: a task's fiber registers itself
once before it yields, and does not end with a registration left behind. -/
def valid (s : Scheduler κ) : Op κ → Bool
  | .pushCb _ _ => true
  | .pushFiber _ => true
  | .trigger n => s.waiting.contains n
  | .dequeue w => match s.workers w with
    | .top => true
    | _ => false
  | .resume w => match s.workers w with
    | .got _ => true
    | .noTask => true
    | _ => false
  | .register w _ => match s.workers w with
    | .running (.task _) false => true
    | _ => false
  | .yield w => match s.workers w with
    | .running (.task _) registered => registered
    | .running (.idle _) _ => true
    | _ => false
  | .finish w => match s.workers w with
    | .running _ registered => !registered
    | _ => false
  | .save w => match s.workers w with
    | .yielding _ => true
    | _ => false
  | .done w => match s.workers w with
    | .returned _ => true
    | _ => false

def step (s : Scheduler κ) (op : Op κ) : Option (Scheduler κ) :=
  if s.valid op then (exec op s).state? else none

end Scheduler

end Luwu
