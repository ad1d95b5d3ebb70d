import Mathlib.Logic.Function.Basic
import Luwu.Lib.OrderedSet
import Luwu.Lib.Prog
import Luwu.Lib.Run

/-!
# The timer manager

`TimerManager` keeps its timers in a `std::set` ordered by `m_next` and, among equal times, by
address.  Timers are shared with the clients that added them: `heap` maps the addresses of all
timers ever returned to their fields, and the set holds addresses, so that a field written through
a handle is what the comparator sees.  Clock readings are arguments.
-/

namespace Luwu

open Lib

/-- A `std::function`; `OnTimer` is the one that `addConditionTimer` wraps around the client's. -/
inductive Callback (γ ω : Type) where
  | fn (cb : γ)
  | onTimer (weakCond : ω) (cb : Option γ)
deriving DecidableEq, Repr

structure Timer (γ ω : Type) where
  recurring : Bool := false
  ms : UInt64 := 0
  next : UInt64 := 0
  cb : Option (Callback γ ω) := none
deriving DecidableEq, Repr

/-- `Timer (ms, cb, recurring, manager)`, with the reading of `GetCurrentMS`. -/
def Timer.new {γ ω : Type} (ms : UInt64) (cb : Option (Callback γ ω)) (recurring : Bool)
    (now : UInt64) : Timer γ ω :=
  { recurring, ms, cb, next := now + ms }

/-- `Timer::Comparator` on pointers, given as address and `m_next` of the timer pointed to; `none`
is the null pointer. -/
def Timer.comparator : Option (Nat × UInt64) → Option (Nat × UInt64) → Bool
  | none, none => false
  | none, some _ => true
  | some _, none => false
  | some lhs, some rhs =>
    if lhs.2 < rhs.2 then true
    else if rhs.2 < lhs.2 then false
    else decide (lhs.1 < rhs.1)

structure TimerManager (γ ω : Type) where
  /-- The timer objects by address. -/
  heap : Nat → Option (Timer γ ω)
  /-- `m_timers`. -/
  timers : List Nat
  tickled : Bool
  /-- Calls of the virtual `onTimerInsertAtFront` so far. -/
  frontCalls : Nat
  /-- The timers whose `m_next` has been modified while they were in `m_timers`.  Only `setTimer`
  writes it, and nothing reads it. -/
  touched : List Nat

namespace TimerManager

variable {γ ω : Type}

inductive Fault where
  /-- `m_timers.erase (m_timers.end ())`. -/
  | eraseEnd
  /-- A handle that no timer belongs to. -/
  | noTimer
deriving DecidableEq, Repr

abbrev M (γ ω : Type) := Prog Fault Empty (TimerManager γ ω)

def init : TimerManager γ ω :=
  { heap := fun _ => none, timers := [], tickled := false, frontCalls := 0, touched := [] }

/-- The comparator on addresses. -/
def lt (m : TimerManager γ ω) (lhs rhs : Nat) : Bool :=
  Timer.comparator ((m.heap lhs).map fun t => (lhs, t.next))
    ((m.heap rhs).map fun t => (rhs, t.next))

/-- The fields of the timer at `a`. -/
def deref (a : Nat) : M γ ω (Timer γ ω) := fun m =>
  match m.heap a with
  | none => .fault .noTimer
  | some t => .ok t m

/-- Assign the fields of the timer at `a`. -/
def setTimer (m : TimerManager γ ω) (a : Nat) (t : Timer γ ω) : TimerManager γ ω :=
  { m with
    heap := Function.update m.heap a (some t)
    touched :=
      if a ∈ m.timers ∧ (m.heap a).map (·.next) ≠ some t.next then a :: m.touched else m.touched }

def find (m : TimerManager γ ω) (a : Nat) : Option Nat := OrderedSet.find m.lt m.timers a

/-- `m_timers.erase (it)`: an iterator must not be `end ()`. -/
def erase (it : Option Nat) : M γ ω Unit := fun m =>
  match it with
  | none => .fault .eraseEnd
  | some i => .ok () { m with timers := m.timers.eraseIdx i }

def insert (m : TimerManager γ ω) (a : Nat) : TimerManager γ ω :=
  { m with timers := OrderedSet.insert m.lt m.timers a }

/-- `addTimer (val, lock)`: it tells the manager when the front of the set is new. -/
def addTimerLocked (a : Nat) : M γ ω Unit :=
  Prog.modify fun m =>
    let m := m.insert a
    let atFront := m.timers.head? = some a ∧ m.tickled = false
    if atFront then { m with tickled := true, frontCalls := m.frontCalls + 1 } else m

/-- `addTimer (ms, cb, recurring)`; `a` is the address the allocation returns. -/
def addTimer (a : Nat) (ms : UInt64) (cb : Option (Callback γ ω)) (recurring : Bool)
    (now : UInt64) : M γ ω Nat := do
  Prog.modify fun m => m.setTimer a (Timer.new ms cb recurring now)
  addTimerLocked a
  pure a

def addConditionTimer (a : Nat) (ms : UInt64) (cb : Option γ) (weakCond : ω) (recurring : Bool)
    (now : UInt64) : M γ ω Nat :=
  addTimer a ms (some (.onTimer weakCond cb)) recurring now

def cancel (a : Nat) : M γ ω Bool := do
  let t ← deref a
  if t.cb.isSome then
    Prog.modify fun m => m.setTimer a { t with cb := none }
    let it ← Prog.gets fun m => m.find a
    erase it
    pure true
  else
    pure false

def refresh (a : Nat) (now : UInt64) : M γ ω Bool := do
  let t ← deref a
  if t.cb.isSome then
    let it ← Prog.gets fun m => m.find a
    if it = none then
      pure false
    else
      erase it
      Prog.modify fun m => m.setTimer a { t with next := now + t.ms }
      Prog.modify fun m => m.insert a
      pure true
  else
    pure false

/-- `Timer::reset (ms, from_now)`. -/
def reset (a : Nat) (ms : UInt64) (fromNow : Bool) (now : UInt64) : M γ ω Bool := do
  let t ← deref a
  if ms = t.ms ∧ fromNow = false then
    pure true
  else if t.cb.isSome then
    let it ← Prog.gets fun m => m.find a
    if it = none then
      pure false
    else
      erase it
      let start := if fromNow then now else t.next - t.ms
      Prog.modify fun m => m.setTimer a { t with ms, next := start + ms }
      addTimerLocked a
      pure true
  else
    pure false

/-- `getNextTimer ()`; `~0ull` is the answer of an empty set. -/
def getNextTimer (now : UInt64) : M γ ω UInt64 := do
  Prog.modify fun m => { m with tickled := false }
  let m ← Prog.gets id
  match m.timers with
  | [] => pure (-1)
  | a :: _ => do
    let next ← deref a
    if next.next ≤ now then pure 0 else pure (next.next - now)

/-- The timers `[begin (), upper_bound (now_timer))`, where `probe` is the address of the temporary
`now_timer`. -/
def expired (m : TimerManager γ ω) (now : UInt64) (probe : Nat) : List Nat :=
  m.timers.take
    (OrderedSet.upperBound (m.setTimer probe { next := now }).lt m.timers probe)

/-- The body of the loop of `listExpiredCb`: the callback is copied out, a recurring timer is armed
again, a one-shot timer only removed. -/
def expireOne (now : UInt64) (a : Nat) : M γ ω (Option (Callback γ ω)) := do
  let t ← deref a
  Prog.modify fun m => { m with timers := OrderedSet.eraseKey m.lt m.timers a }
  if t.recurring then
    Prog.modify fun m => (m.setTimer a { t with next := now + t.ms }).insert a
  pure t.cb

/-- The loop over the expired timers. -/
def expireAll (now : UInt64) : List Nat → M γ ω (List (Option (Callback γ ω)))
  | [] => pure []
  | a :: as => do
    let cb ← expireOne now a
    let cbs ← expireAll now as
    pure (cb :: cbs)

def listExpiredCb (now : UInt64) (probe : Nat) : M γ ω (List (Option (Callback γ ω))) := do
  let m ← Prog.gets id
  if m.timers = [] then
    pure []
  else
    expireAll now (m.expired now probe)

/-- A call on the manager or on one of its timers, with the clock readings it makes. -/
inductive Op (γ ω : Type) where
  | addTimer (a : Nat) (ms : UInt64) (cb : Option (Callback γ ω)) (recurring : Bool) (now : UInt64)
  | addConditionTimer (a : Nat) (ms : UInt64) (cb : Option γ) (weakCond : ω) (recurring : Bool)
      (now : UInt64)
  | cancel (a : Nat)
  | refresh (a : Nat) (now : UInt64)
  | reset (a : Nat) (ms : UInt64) (fromNow : Bool) (now : UInt64)
  | getNextTimer (now : UInt64)
  | listExpiredCb (now : UInt64) (probe : Nat)

/-- Forget what a call returns. -/
def drop {α : Type} (c : M γ ω α) : M γ ω Unit := do
  let _ ← c
  pure ()

def exec : Op γ ω → M γ ω Unit
  | .addTimer a ms cb recurring now => drop (addTimer a ms cb recurring now)
  | .addConditionTimer a ms cb weakCond recurring now =>
    drop (addConditionTimer a ms cb weakCond recurring now)
  | .cancel a => drop (cancel a)
  | .refresh a now => drop (refresh a now)
  | .reset a ms fromNow now => drop (reset a ms fromNow now)
  | .getNextTimer now => drop (getNextTimer now)
  | .listExpiredCb now probe => drop (listExpiredCb now probe)

/-- A new timer, the temporary one included, is at an address no other timer has; the members of
`Timer` are called through handles that were returned before. -/
def valid (m : TimerManager γ ω) : Op γ ω → Bool
  | .addTimer a _ _ _ _ => (m.heap a).isNone
  | .addConditionTimer a _ _ _ _ _ => (m.heap a).isNone
  | .cancel a => (m.heap a).isSome
  | .refresh a _ => (m.heap a).isSome
  | .reset a _ _ _ => (m.heap a).isSome
  | .getNextTimer _ => true
  | .listExpiredCb _ probe => (m.heap probe).isNone

def step (m : TimerManager γ ω) (op : Op γ ω) : Option (TimerManager γ ω) :=
  if m.valid op then (exec op m).state? else none

end TimerManager

end Luwu
