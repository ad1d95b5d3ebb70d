import Mathlib.Logic.Function.Basic
import Luwu.Lib.Prog
import Luwu.Lib.Run

/-!
# I/O events

The part of `IOManager` that registers callbacks for file descriptors and hands them to a scheduler
when they are due.  Every operation works on one `FdContext` under that context's mutex and is one
step here; so is the handling of one entry of the array that `epoll_wait` filled.  The array is
taken first and worked off later, so that other threads' steps fall between.

The context table has `n` entries.  `κ` are callbacks, `φ` fibers; schedulers are numbered.
-/

namespace Luwu

open Lib

/-- `READ` and `WRITE`, which are also epoll's `EPOLLIN` and `EPOLLOUT`. -/
inductive Event where
  | read
  | write
deriving DecidableEq, Repr

/-- A set of events, one bit for each. -/
abbrev Mask := Event → Bool

namespace Mask

def none : Mask := fun _ => false

def any (s : Mask) : Bool := s .read || s .write

/-- Every bit of `s` is a bit of `t`. -/
def within (s t : Mask) : Bool := (!s .read || t .read) && (!s .write || t .write)

/-- The number of bits that are set. -/
def count (s : Mask) : Nat := (s .read).toNat + (s .write).toNat

end Mask

structure EventContext (κ φ : Type) where
  scheduler : Option Nat := none
  fiber : Option φ := none
  cb : Option κ := none
deriving DecidableEq, Repr

/-- `read`, `write` and `event` of an `FdContext`; `context e` is `getEventContext (e)`. -/
structure FdContext (κ φ : Type) where
  context : Event → EventContext κ φ := fun _ => {}
  event : Mask := Mask.none

/-- An entry of the array that `epoll_wait` fills: the bits `EPOLLIN` and `EPOLLOUT` as a mask, and
`EPOLLERR`, `EPOLLHUP`. -/
structure EpollEvent (n : Nat) where
  fd : Fin n
  bits : Mask
  err : Bool
  hup : Bool

/-- What `triggerEvent` hands to `Scheduler::scheduler`. -/
inductive Task (κ φ : Type) where
  | cb (f : κ)
  | fiber (f : Option φ)
deriving DecidableEq, Repr

/-- The callback if there is one, else the fiber. -/
def EventContext.task {κ φ : Type} (ctx : EventContext κ φ) : Task κ φ :=
  match ctx.cb with
  | some f => .cb f
  | none => .fiber ctx.fiber

/-- The context `addEvent` fills in: without a callback the calling fiber is registered. -/
def EventContext.fill {κ φ : Type} (cb : Option κ) (sched : Nat) (self : φ) : EventContext κ φ :=
  match cb with
  | some f => { scheduler := some sched, cb := some f }
  | none => { scheduler := some sched, fiber := some self }

inductive CtlOp where
  | add
  | mod
  | del
deriving DecidableEq, Repr

structure IOManager (n : Nat) (κ φ : Type) where
  /-- `m_fdContexts`. -/
  contexts : Fin n → FdContext κ φ
  /-- The kernel's interest list. -/
  interest : Fin n → Option Mask
  /-- `m_pendingEventCount`; that it does not pass below zero is part of `Inv`. -/
  pending : Int
  /-- The entries each idle thread has yet to handle. -/
  events : Nat → List (EpollEvent n)
  /-- What was handed to which scheduler. -/
  scheduled : List (Nat × Task κ φ)

namespace IOManager

variable {n : Nat} {κ φ : Type}

inductive Fault where
  /-- `LUWU_ASSERT (event & e)` of `triggerEvent`. -/
  | triggerAssert
  /-- A null `ctx.scheduler` in `triggerEvent`. -/
  | nullScheduler
  /-- `LUWU_ASSERT (!(fdContext->event & event))` of `addEvent`. -/
  | addAssert
  /-- `LUWU_ASSERT (!eventContext.scheduler && !eventContext.fiber && !eventContext.cb)`. -/
  | contextAssert
  /-- `LUWU_ASSERT (fdContext->event == 0)` of `cancelAll`. -/
  | cancelAssert
deriving DecidableEq, Repr

abbrev M (n : Nat) (κ φ : Type) := Prog Fault Empty (IOManager n κ φ)

def init : IOManager n κ φ :=
  { contexts := fun _ => {}, interest := fun _ => none, pending := 0, events := fun _ => []
    scheduled := [] }

def setContext (m : IOManager n κ φ) (fd : Fin n) (c : FdContext κ φ) : IOManager n κ φ :=
  { m with contexts := Function.update m.contexts fd c }

/-- `epoll_ctl (m_epfd, op, fd, mask)`.  It fails when the kernel refuses (`ok` is false), when a
registered descriptor is added, and when an unregistered one is modified or removed; the result is
whether it succeeded. -/
def epollCtl (op : CtlOp) (fd : Fin n) (mask : Mask) (ok : Bool) : M n κ φ Bool := fun m =>
  match ok, op, m.interest fd with
  | true, .add, none => .ok true { m with interest := Function.update m.interest fd (some mask) }
  | true, .mod, some _ => .ok true { m with interest := Function.update m.interest fd (some mask) }
  | true, .del, some _ => .ok true { m with interest := Function.update m.interest fd none }
  | _, _, _ => .ok false m

def triggerEvent (fd : Fin n) (e : Event) : M n κ φ Unit := fun m =>
  let c := m.contexts fd
  if c.event e = false then .fault .triggerAssert
  else
    let ctx := c.context e
    match ctx.scheduler with
    | none => .fault .nullScheduler
    | some s =>
      .ok () { m.setContext fd { context := Function.update c.context e {}
                                 event := Function.update c.event e false } with
        scheduled := m.scheduled ++ [(s, ctx.task)] }

def decPending : M n κ φ Unit := Prog.modify fun m => { m with pending := m.pending - 1 }

/-- `addEvent (fd, event, cb)` by a fiber `self` of the scheduler `sched`. -/
def addEvent (fd : Fin n) (e : Event) (cb : Option κ) (sched : Nat) (self : φ) (ok : Bool) :
    M n κ φ Bool := do
  let c ← Prog.gets fun m => m.contexts fd
  if c.event e then
    Prog.crash .addAssert
  else
    let op := if c.event.any then CtlOp.mod else .add
    let rt ← epollCtl op fd (Function.update c.event e true) ok
    if rt then
      Prog.modify fun m => { m with pending := m.pending + 1 }
      let ctx := c.context e
      if ctx.scheduler.isSome || ctx.fiber.isSome || ctx.cb.isSome then
        Prog.crash .contextAssert
      else
        Prog.modify fun m => m.setContext fd
          { context := Function.update c.context e (.fill cb sched self)
            event := Function.update c.event e true }
        pure true
    else
      pure false

/-- `delEvent (fd, event)`: the event is dropped without being triggered. -/
def delEvent (fd : Fin n) (e : Event) (ok : Bool) : M n κ φ Bool := do
  let c ← Prog.gets fun m => m.contexts fd
  if c.event e then
    let left := Function.update c.event e false
    let op := if Mask.any left then CtlOp.mod else .del
    let rt ← epollCtl op fd left ok
    if rt then
      decPending
      Prog.modify fun m => m.setContext fd
        { context := Function.update c.context e {}, event := left }
      pure true
    else
      pure false
  else
    pure false

/-- `cancelEvent (fd, event)`: the event is triggered once. -/
def cancelEvent (fd : Fin n) (e : Event) (ok : Bool) : M n κ φ Bool := do
  let c ← Prog.gets fun m => m.contexts fd
  if c.event e then
    let left := Function.update c.event e false
    let op := if Mask.any left then CtlOp.mod else .del
    let rt ← epollCtl op fd left ok
    if rt then
      triggerEvent fd e
      decPending
      pure true
    else
      pure false
  else
    pure false

/-- `if (mask & e) { fd_ctx->triggerEvent (e); --m_pendingEventCount; }`. -/
def triggerIf (b : Bool) (fd : Fin n) (e : Event) : M n κ φ Unit :=
  if b then do
    triggerEvent fd e
    decPending
  else
    pure ()

def cancelAll (fd : Fin n) (ok : Bool) : M n κ φ Bool := do
  let c ← Prog.gets fun m => m.contexts fd
  if c.event.any then
    let rt ← epollCtl .del fd Mask.none ok
    if rt then
      let c ← Prog.gets fun m => m.contexts fd
      triggerIf (c.event .read) fd .read
      let c ← Prog.gets fun m => m.contexts fd
      triggerIf (c.event .write) fd .write
      let c ← Prog.gets fun m => m.contexts fd
      if c.event.any then
        Prog.crash .cancelAssert
      else
        pure true
    else
      pure false
  else
    pure false

/-- `real_events`: what is reported, where an error or a hang-up stands for every armed event. -/
def realEvents (ev : EpollEvent n) (event : Mask) : Mask := fun e =>
  ev.bits e || ((ev.err || ev.hup) && event e)

/-- The body of the loop of `idle ()` over the reported entries. -/
def handleEvent (ev : EpollEvent n) (ok : Bool) : M n κ φ Unit := do
  let c ← Prog.gets fun m => m.contexts ev.fd
  let real := realEvents ev c.event
  if Mask.any (fun e => c.event e && real e) then
    let left : Mask := fun e => c.event e && !real e
    let op := if Mask.any left then CtlOp.mod else .del
    let rt ← epollCtl op ev.fd left ok
    if rt then
      triggerIf (real .read) ev.fd .read
      triggerIf (real .write) ev.fd .write
    else
      pure ()
  else
    pure ()

/-- One step of a thread. -/
inductive Op (n : Nat) (κ φ : Type) where
  | addEvent (fd : Fin n) (e : Event) (cb : Option κ) (sched : Nat) (self : φ) (ok : Bool)
  | delEvent (fd : Fin n) (e : Event) (ok : Bool)
  | cancelEvent (fd : Fin n) (e : Event) (ok : Bool)
  | cancelAll (fd : Fin n) (ok : Bool)
  /-- `epoll_wait` returns on the idle thread `w`. -/
  | epollWait (w : Nat) (evs : List (EpollEvent n))
  /-- The idle thread `w` handles its next entry. -/
  | handleNext (w : Nat) (ok : Bool)

def drop {α : Type} (c : M n κ φ α) : M n κ φ Unit := do
  let _ ← c
  pure ()

def exec : Op n κ φ → M n κ φ Unit
  | .addEvent fd e cb sched self ok => drop (addEvent fd e cb sched self ok)
  | .delEvent fd e ok => drop (delEvent fd e ok)
  | .cancelEvent fd e ok => drop (cancelEvent fd e ok)
  | .cancelAll fd ok => drop (cancelAll fd ok)
  | .epollWait w evs => Prog.modify fun m => { m with events := Function.update m.events w evs }
  | .handleNext w ok => do
    let evs ← Prog.gets fun m => m.events w
    match evs with
    | [] => pure ()
    | ev :: rest => do
      Prog.modify fun m => { m with events := Function.update m.events w rest }
      handleEvent ev ok

/-- Only events of the interest mask are reported, errors and hang-ups apart. -/
def reportable (m : IOManager n κ φ) (ev : EpollEvent n) : Bool :=
  match m.interest ev.fd with
  | none => false
  | some mask => ev.bits.within mask

/-- `epoll_wait` is called when the last array is worked off, and reports a descriptor once and at
most `MAX_EVENTS` of them. -/
def valid (m : IOManager n κ φ) : Op n κ φ → Bool
  | .epollWait w evs =>
    (m.events w).isEmpty && evs.all m.reportable && decide (evs.map (·.fd)).Nodup &&
      decide (evs.length ≤ 256)
  | .handleNext w _ => !(m.events w).isEmpty
  | _ => true

def step (m : IOManager n κ φ) (op : Op n κ φ) : Option (IOManager n κ φ) :=
  if m.valid op then (exec op m).state? else none

end IOManager

end Luwu
