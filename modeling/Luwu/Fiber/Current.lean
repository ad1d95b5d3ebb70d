import Mathlib.Logic.Function.Basic
import Luwu.Lib.Run
import Luwu.Scheduler.Basic

/-!
# The current fiber of a thread

`t_fiber` is meant to be the fiber that the thread executes.  `resume` and `yield` set it before
they swap contexts: with the thread's main fiber, or with its scheduler fiber for a fiber that takes
part in scheduling.  The two differ on the thread of a scheduler with `use_caller`.

Fibers are identified by their addresses.  A context is the stack on which it continues.
-/

namespace Luwu

open Lib

inductive Stack where
  /-- The stack that the thread started on. -/
  | thread
  /-- `m_stack` of the fiber at the address `p`. -/
  | fiber (p : Nat)
deriving DecidableEq

namespace FiberThread

structure Fiber where
  id : Nat
  state : FiberState := .ready
  runInScheduler : Bool := true
  /-- `m_stack` is not null. -/
  hasStack : Bool := true
  /-- The stack on which `m_context` continues. -/
  context : Stack
  /-- `cur` of `MainFunc`, once that has begun on the stack of the fiber. -/
  cur : Option Nat := none
deriving DecidableEq

/-- The stack of a fiber at the address `p`. -/
def Fiber.stack (f : Fiber) (p : Nat) : Stack := if f.hasStack then .fiber p else .thread

end FiberThread

/-- A thread with its thread-local variables. -/
structure FiberThread where
  fibers : Nat → Option FiberThread.Fiber := fun _ => none
  /-- The stack in use. -/
  stack : Stack := .thread
  /-- `t_fiber`. -/
  current : Option Nat := none
  /-- `t_threadFiber`. -/
  threadFiber : Option Nat := none
  /-- `t_scheduler_fiber`. -/
  schedulerFiber : Option Nat := none
  /-- `t_scheduler` is not null. -/
  hasScheduler : Bool := false

namespace FiberThread

def setFiber (s : FiberThread) (p : Nat) (f : Fiber) : FiberThread :=
  { s with fibers := Function.update s.fibers p (some f) }

def setThis (s : FiberThread) (p : Option Nat) : FiberThread := { s with current := p }

/-- `GetThis ()`.  A main fiber that it makes gets the free address `p` and the number `id`. -/
def getThis (s : FiberThread) (p id : Nat) : Option FiberThread :=
  if s.current ≠ none then some s
  else if s.fibers p ≠ none then none
  else
    let main : Fiber := { id, state := .running, hasStack := false, context := s.stack }
    some { (s.setThis (some p)).setFiber p main with threadFiber := some p }

def getFiberId (s : FiberThread) : Nat := ((s.current.bind s.fibers).map Fiber.id).getD 0

/-- `Fiber (cb, stackSize, run_in_scheduler)`, made at the free address `p`. -/
def newFiber (s : FiberThread) (p id : Nat) (runInScheduler : Bool) : Option FiberThread :=
  if s.fibers p ≠ none then none
  else some (s.setFiber p { id, runInScheduler, context := .fiber p })

/-- The thread goes on on a stack.  Where `MainFunc` begins there, it takes `GetThis ()`. -/
def enter (s : FiberThread) (stack : Stack) : Option FiberThread :=
  match stack with
  | .thread => some { s with stack := .thread }
  | .fiber p => (s.fibers p).map fun f =>
    { s.setFiber p { f with cur := if f.cur = none then s.current else f.cur } with
      stack := .fiber p }

def swapcontext (s : FiberThread) (p q : Nat) : Option FiberThread := do
  let f ← s.fibers p
  let s := s.setFiber p { f with context := s.stack }
  let g ← s.fibers q
  s.enter g.context

/-- The fiber with which `resume` and `yield` exchange a fiber. -/
def partner (s : FiberThread) (f : Fiber) : Option Nat :=
  if f.runInScheduler then s.schedulerFiber else s.threadFiber

/-- `resume ()` of the fiber at `p`. -/
def resume (s : FiberThread) (p : Nat) : Option FiberThread := do
  let f ← s.fibers p
  if f.state ≠ .ready then none
  else
    let s := (s.setThis (some p)).setFiber p { f with state := .running }
    let q ← s.partner f
    s.swapcontext q p

/-- `yield ()` of the fiber at `p`. -/
def yield (s : FiberThread) (p : Nat) : Option FiberThread := do
  let f ← s.fibers p
  if f.state ≠ .term ∧ f.state ≠ .running then none
  else
    let state := if f.state = .running then .ready else f.state
    let s := (s.setThis s.threadFiber).setFiber p { f with state }
    let q ← s.partner f
    s.swapcontext p q

def stackOf (s : FiberThread) (p : Nat) : Option Stack :=
  (s.fibers p).map fun f => f.stack p

/-- The local `cur` of the `MainFunc` on the stack in use. -/
def localCur (s : FiberThread) : Option Nat :=
  match s.stack with
  | .thread => none
  | .fiber x => (s.fibers x).bind Fiber.cur

inductive Act where
  | getThis (p id : Nat)
  | newFiber (p id : Nat) (runInScheduler : Bool)
  | reset (p : Nat)
  | destroy (p : Nat)
  | resume (p : Nat)
  | yield (p : Nat)
  /-- The end of `MainFunc`, with its `cur` being the fiber at `p`. -/
  | finish (p : Nat)
  /-- `Scheduler (threads, true, name)`; the root fiber gets the address `q` and the number
  `rootId`. -/
  | newScheduler (p id q rootId : Nat)
  /-- `~Scheduler ()`. -/
  | endScheduler
  /-- The beginning of `Scheduler::run` as the entry function of a worker thread. -/
  | run (p id : Nat)
deriving DecidableEq

/-- A step of the thread.  `resume` is called from the context that it swaps out, `yield` on the
fiber that executes or on the one that `GetThis ()` returns. -/
def step (s : FiberThread) : Act → Option FiberThread
  | .getThis p id => s.getThis p id
  | .newFiber p id runInScheduler => s.newFiber p id runInScheduler
  | .reset p => do
    let f ← s.fibers p
    if f.hasStack = true ∧ f.state = .term then
      some (s.setFiber p { f with context := .fiber p, cur := none, state := .ready })
    else none
  | .destroy p => do
    let f ← s.fibers p
    if f.hasStack = true ∧ f.state = .term then
      some { s with fibers := Function.update s.fibers p none }
    else none
  | .resume p => do
    let f ← s.fibers p
    let q ← s.partner f
    if s.stackOf q = some s.stack then s.resume p else none
  | .yield p => if s.current = some p ∨ s.stackOf p = some s.stack then s.yield p else none
  | .finish p => do
    let f ← s.fibers p
    if s.localCur = some p then (s.setFiber p { f with state := .term }).yield p else none
  | .newScheduler p id q rootId => do
    let s ← s.getThis p id
    if s.hasScheduler then none
    else
      let s ← s.newFiber q rootId false
      some { s with hasScheduler := true, schedulerFiber := some q }
  | .endScheduler => some { s with hasScheduler := false }
  | .run p id => do
    if s.stack = .thread then
      let s ← s.getThis p id
      some { s with hasScheduler := true, schedulerFiber := s.current }
    else none

/-- The fiber whose context executes. -/
def executing (s : FiberThread) : Option Nat :=
  match s.stack with
  | .thread => s.threadFiber
  | .fiber p => some p

/-- `t_fiber`, and with it `GetThis ()` and `GetFiberId ()`, is about the fiber that executes. -/
structure Identified (s : FiberThread) : Prop where
  current : s.current = s.executing
  fiberId : s.getFiberId = ((s.executing.bind s.fibers).map Fiber.id).getD 0

/-- The fiber on which an action calls `yield`. -/
def Act.yielder : Act → Option Nat
  | .yield p => some p
  | .finish p => some p
  | _ => none

/-- A fiber that takes part in scheduling yields only where the scheduler fiber is the main
fiber. -/
def YieldsToMain (s : FiberThread) (a : Act) : Prop :=
  ∀ p f, a.yielder = some p → s.fibers p = some f → f.runInScheduler = true →
    s.schedulerFiber = s.threadFiber

instance (s : FiberThread) (a : Act) : Decidable (YieldsToMain s a) :=
  decidable_of_iff (∀ p ∈ a.yielder, ∀ f ∈ s.fibers p, f.runInScheduler = true →
      s.schedulerFiber = s.threadFiber)
    ⟨fun h p f hp hf => h p hp f hf, fun h p hp f hf => h p f hp hf⟩

/-! ## Fibers and contexts -/

/-- The main fiber is the one without a stack, a context continues on the stack of its fiber, and
`MainFunc` runs for the fiber whose stack it uses. -/
structure WellFormed (fibers : Nat → Option Fiber) (threadFiber : Option Nat) : Prop where
  main : ∀ p f, fibers p = some f → (f.hasStack = false ↔ threadFiber = some p)
  live : ∀ p, threadFiber = some p → fibers p ≠ none
  context : ∀ p f, fibers p = some f → f.context = f.stack p
  cur : ∀ p f, fibers p = some f → f.cur = none ∨ f.cur = some p

section WellFormed

variable {fibers : Nat → Option Fiber} {threadFiber : Option Nat} {p q : Nat} {f g : Fiber}

theorem of_update {v : Option Fiber} (hq : Function.update fibers p v q = some g) :
    (q = p ∧ v = some g) ∨ (q ≠ p ∧ fibers q = some g) := by
  rw [Function.update_apply] at hq
  split at hq
  · rename_i hqp
    exact .inl ⟨hqp, hq⟩
  · rename_i hqp
    exact .inr ⟨hqp, hq⟩

/-- A fiber at the address `p`, with a stack of its own or as the main fiber. -/
theorem WellFormed.insert (h : WellFormed fibers threadFiber) {threadFiber' : Option Nat}
    (hcontext : g.context = g.stack p) (hcur : g.cur = none ∨ g.cur = some p)
    (hmain : g.hasStack = false ↔ threadFiber' = some p)
    (hothers : ∀ q, q ≠ p → (threadFiber' = some q ↔ threadFiber = some q)) :
    WellFormed (Function.update fibers p (some g)) threadFiber' := by
  refine ⟨?_, ?_, ?_, ?_⟩
  · intro q e he
    rcases of_update he with ⟨rfl, hge⟩ | ⟨hq, hold⟩
    · cases hge
      exact hmain
    · exact (h.main q e hold).trans (hothers q hq).symm
  · intro q hq
    rw [Function.update_apply]
    split
    · exact Option.some_ne_none g
    · rename_i hne
      exact h.live q ((hothers q hne).mp hq)
  · intro q e he
    rcases of_update he with ⟨rfl, hge⟩ | ⟨-, hold⟩
    · cases hge
      exact hcontext
    · exact h.context q e hold
  · intro q e he
    rcases of_update he with ⟨rfl, hge⟩ | ⟨-, hold⟩
    · cases hge
      exact hcur
    · exact h.cur q e hold

/-- A change of a fiber that leaves its stack, its context and the place of `MainFunc`. -/
theorem WellFormed.update (h : WellFormed fibers threadFiber) (hf : fibers p = some f)
    (hstack : g.hasStack = f.hasStack) (hcontext : g.context = f.context)
    (hcur : g.cur = none ∨ g.cur = some p) :
    WellFormed (Function.update fibers p (some g)) threadFiber := by
  refine h.insert ?_ hcur ?_ fun _ _ => Iff.rfl
  · rw [hcontext, h.context p f hf]
    unfold Fiber.stack
    rw [hstack]
  · rw [hstack]
    exact h.main p f hf

theorem WellFormed.erase (h : WellFormed fibers threadFiber) (hf : fibers p = some f)
    (hstack : f.hasStack = true) : WellFormed (Function.update fibers p none) threadFiber := by
  have hold : ∀ q e, Function.update fibers p none q = some e → fibers q = some e := by
    intro q e he
    rcases of_update he with ⟨-, hnone⟩ | ⟨-, hold⟩
    · cases hnone
    · exact hold
  refine ⟨fun q e he => h.main q e (hold q e he), ?_, fun q e he => h.context q e (hold q e he),
    fun q e he => h.cur q e (hold q e he)⟩
  intro q hq
  rw [Function.update_apply]
  split
  · rename_i hqp
    rw [hqp] at hq
    rw [(h.main p f hf).mpr hq] at hstack
    cases hstack
  · exact h.live q hq

end WellFormed

/-! ## Steps -/

/-- The invariant of a thread whose current fiber is the one that executes. -/
structure Sound (s : FiberThread) : Prop where
  wellFormed : WellFormed s.fibers s.threadFiber
  current : s.current = s.executing
  running : ∀ p, s.stack = .fiber p →
    ∃ f, s.fibers p = some f ∧ f.hasStack = true ∧ f.state = .running ∧ f.cur = some p

section Steps

variable {s s' : FiberThread} {p q : Nat} {f g : Fiber}

theorem Sound.identified (h : Sound s) : Identified s := by
  refine ⟨h.current, ?_⟩
  unfold getFiberId
  rw [h.current]

theorem stackOf_eq_some {stack : Stack} :
    s.stackOf p = some stack ↔ ∃ f, s.fibers p = some f ∧ f.stack p = stack :=
  Option.map_eq_some_iff

theorem stackOf_setFiber (hf : s.fibers p = some f) (hstack : g.hasStack = f.hasStack) :
    (s.setFiber p g).stackOf q = s.stackOf q := by
  unfold stackOf setFiber
  dsimp only
  rw [Function.update_apply]
  split
  · rename_i hq
    rw [hq, hf]
    unfold Fiber.stack
    rw [Option.map_some, Option.map_some, hstack]
  · rfl

theorem stackOf_of_current (h : Sound s) (hf : s.fibers p = some f) (hp : s.current = some p) :
    s.stackOf p = some s.stack := by
  rw [stackOf_eq_some]
  refine ⟨f, hf, ?_⟩
  rw [h.current] at hp
  unfold executing at hp
  unfold Fiber.stack
  cases hs : s.stack with
  | thread =>
    rw [hs] at hp
    rw [(h.wellFormed.main p f hf).mpr hp]
    rfl
  | fiber x =>
    rw [hs] at hp
    cases hp
    obtain ⟨g, hg, hstack, -, -⟩ := h.running p hs
    rw [hf] at hg
    cases hg
    rw [hstack]
    rfl

theorem current_of_localCur (h : Sound s) (hp : s.localCur = some p) : s.current = some p := by
  rw [h.current]
  unfold executing
  unfold localCur at hp
  cases hs : s.stack with
  | thread =>
    rw [hs] at hp
    cases hp
  | fiber x =>
    rw [hs] at hp
    obtain ⟨f, hf, -, -, hcur⟩ := h.running x hs
    replace hp : (s.fibers x).bind Fiber.cur = some p := hp
    rw [hf, Option.bind_some, hcur] at hp
    exact hp

theorem enter_fiber (hf : s.fibers p = some f) :
    s.enter (.fiber p) = some
      { s.setFiber p { f with cur := if f.cur = none then s.current else f.cur } with
        stack := .fiber p } := by
  unfold enter
  dsimp only
  rw [hf]
  rfl

/-- A swap from the context that is in use stores nothing new. -/
theorem swapcontext_eq (hf : s.fibers p = some f) (hcontext : f.context = s.stack) :
    s.swapcontext p q = (s.fibers q).bind fun g => s.enter g.context := by
  have hsame : s.setFiber p { f with context := s.stack } = s := by
    rw [← hcontext]
    unfold setFiber
    rw [← hf, Function.update_eq_self]
  unfold swapcontext
  rw [hf]
  show ((s.setFiber p { f with context := s.stack }).fibers q).bind _ = _
  rw [hsame]

/-- A change of a fiber that is not on the stack in use. -/
theorem Sound.update (h : Sound s) {v : Option Fiber}
    (hw : WellFormed (Function.update s.fibers p v) s.threadFiber) (hp : s.stack ≠ .fiber p) :
    Sound { s with fibers := Function.update s.fibers p v } := by
  refine ⟨hw, h.current, ?_⟩
  intro x hx
  obtain ⟨f, hf, hrest⟩ := h.running x hx
  refine ⟨f, ?_, hrest⟩
  have hne : x ≠ p := by
    intro hxp
    rw [hxp] at hx
    exact hp hx
  exact (Function.update_of_ne hne _ _).trans hf

theorem Sound.stack_ne (h : Sound s) (hp : ∀ f, s.fibers p = some f → f.state ≠ .running) :
    s.stack ≠ .fiber p := by
  intro hstack
  obtain ⟨f, hf, -, hrunning, -⟩ := h.running p hstack
  exact hp f hf hrunning

theorem getThis_sound {id : Nat} (h : Sound s) (hstep : s.getThis p id = some s') : Sound s' := by
  unfold getThis at hstep
  split at hstep
  · cases hstep
    exact h
  · rename_i hnone
    split at hstep
    · cases hstep
    · rename_i hp
      rw [not_not] at hnone hp
      have hexec := h.current.symm.trans hnone
      -- nothing executes but the thread itself, which has no fiber yet
      have hstack : s.stack = .thread := by
        cases hs : s.stack with
        | thread => rfl
        | fiber x =>
          unfold executing at hexec
          rw [hs] at hexec
          cases hexec
      have hthread : s.threadFiber = none := by
        unfold executing at hexec
        rw [hstack] at hexec
        exact hexec
      cases hstep
      refine ⟨?_, ?_, ?_⟩
      · refine h.wellFormed.insert hstack (.inl rfl) (iff_of_true rfl rfl) ?_
        intro q hq
        rw [hthread]
        exact iff_of_false (fun hpq => hq (Option.some.inj hpq).symm) (fun hc => by cases hc)
      · show some p = executing _
        unfold executing
        show some p = match s.stack with
          | .thread => some p
          | .fiber x => some x
        rw [hstack]
      · intro x hx
        have hthread' : Stack.thread = .fiber x := hstack.symm.trans hx
        cases hthread'

theorem newFiber_sound {id : Nat} {runInScheduler : Bool} (h : Sound s)
    (hstep : s.newFiber p id runInScheduler = some s') : Sound s' := by
  unfold newFiber at hstep
  split at hstep
  · cases hstep
  · rename_i hp
    rw [not_not] at hp
    cases hstep
    have hmain : s.threadFiber ≠ some p := fun hc => h.wellFormed.live p hc hp
    apply h.update
    · refine h.wellFormed.insert rfl (.inl rfl) ?_ fun _ _ => Iff.rfl
      exact iff_of_false (fun hc => by cases hc) hmain
    · apply h.stack_ne
      intro f hf
      rw [hp] at hf
      cases hf

theorem reset_sound (h : Sound s) (hstep : step s (.reset p) = some s') : Sound s' := by
  obtain ⟨f, hf, hif⟩ := Option.bind_eq_some_iff.mp hstep
  split at hif
  · rename_i hterm
    cases hif
    apply h.update
    · refine h.wellFormed.update hf rfl ?_ (.inl rfl)
      rw [h.wellFormed.context p f hf]
      unfold Fiber.stack
      rw [hterm.1]
      rfl
    · apply h.stack_ne
      intro g hg
      rw [hf] at hg
      cases hg
      rw [hterm.2]
      decide
  · cases hif

theorem destroy_sound (h : Sound s) (hstep : step s (.destroy p) = some s') : Sound s' := by
  obtain ⟨f, hf, hif⟩ := Option.bind_eq_some_iff.mp hstep
  split at hif
  · rename_i hterm
    cases hif
    apply h.update (h.wellFormed.erase hf hterm.1)
    apply h.stack_ne
    intro g hg
    rw [hf] at hg
    cases hg
    rw [hterm.2]
    decide
  · cases hif

/-! ### Switches -/

/-- The thread goes on with the context of a fiber that `t_fiber` designates. -/
theorem enter_sound (h : WellFormed s.fibers s.threadFiber) (hf : s.fibers p = some f)
    (hrunning : f.hasStack = true → f.state = .running) (hcurrent : s.current = some p)
    (henter : s.enter f.context = some s') : Sound s' := by
  rw [h.context p f hf] at henter
  unfold Fiber.stack at henter
  split at henter
  · rename_i hown
    -- `MainFunc` begins there, or it goes on with the `cur` it has taken
    rw [enter_fiber hf, hcurrent] at henter
    have hcur : (if f.cur = none then some p else f.cur) = some p := by
      rcases h.cur p f hf with hnone | hsome
      · rw [if_pos hnone]
      · rw [hsome]
        rfl
    cases henter
    refine ⟨h.update hf rfl rfl (.inr hcur), hcurrent, ?_⟩
    intro x hx
    cases hx
    exact ⟨_, Function.update_self _ _ _, hown, hrunning hown, hcur⟩
  · rename_i hmain
    -- the main fiber continues on the stack of the thread
    cases henter
    refine ⟨h, ?_, ?_⟩
    · exact hcurrent.trans ((h.main p f hf).mp (Bool.eq_false_iff.mpr hmain)).symm
    · intro x hx
      cases hx

/-- `resume` from the context that it swaps out goes on with the context of the fiber. -/
theorem resume_eq (h : WellFormed s.fibers s.threadFiber) (hf : s.fibers p = some f)
    (hready : f.state = .ready) (hq : s.partner f = some q) (hstack : s.stackOf q = some s.stack) :
    s.resume p =
      ((s.setThis (some p)).setFiber p { f with state := .running }).enter f.context := by
  have hw : WellFormed ((s.setThis (some p)).setFiber p { f with state := .running }).fibers
      s.threadFiber := h.update hf rfl rfl (h.cur p f hf)
  have hstack' : ((s.setThis (some p)).setFiber p { f with state := .running }).stackOf q =
      some s.stack :=
    (stackOf_setFiber (g := { f with state := .running }) hf rfl).trans hstack
  obtain ⟨e, he, hes⟩ := stackOf_eq_some.mp hstack'
  unfold resume
  rw [hf]
  show (if f.state ≠ .ready then none else _) = _
  rw [if_neg (not_not.mpr hready)]
  show (s.partner f).bind _ = _
  rw [hq]
  show swapcontext _ q p = _
  rw [swapcontext_eq he ((hw.context q e he).trans hes)]
  show ((Function.update s.fibers p (some { f with state := .running })) p).bind _ = _
  rw [Function.update_self]
  rfl

theorem resume_sound (h : Sound s) (hstep : step s (.resume p) = some s') : Sound s' := by
  obtain ⟨f, hf, hbind⟩ := Option.bind_eq_some_iff.mp hstep
  obtain ⟨q, hq, hif⟩ := Option.bind_eq_some_iff.mp hbind
  split at hif
  · rename_i hstack
    -- `LUWU_ASSERT (m_state == READY)`
    have hready : f.state = .ready := by
      by_contra hne
      unfold resume at hif
      rw [hf] at hif
      replace hif : (if f.state ≠ .ready then none else _) = some s' := hif
      rw [if_pos hne] at hif
      cases hif
    rw [resume_eq h.wellFormed hf hready hq hstack] at hif
    have hw := h.wellFormed.update (g := { f with state := .running }) hf rfl rfl
      (h.wellFormed.cur p f hf)
    exact enter_sound (f := { f with state := .running })
      (s := (s.setThis (some p)).setFiber p { f with state := .running }) hw
      (Function.update_self _ _ _) (fun _ => rfl) rfl hif
  · cases hif

/-- `yield` of the fiber that executes goes on with the context of its partner. -/
theorem yield_eq (h : WellFormed s.fibers s.threadFiber) (hf : s.fibers p = some f)
    (hstack : s.stackOf p = some s.stack) (hyield : s.yield p = some s') :
    ∃ (t : FiberThread) (g : Fiber), WellFormed t.fibers s.threadFiber ∧
      t.threadFiber = s.threadFiber ∧
      t.current = s.threadFiber ∧ (s.partner f).bind t.fibers = some g ∧
      t.enter g.context = some s' := by
  unfold yield at hyield
  rw [hf] at hyield
  replace hyield : (if f.state ≠ .term ∧ f.state ≠ .running then none else _) = some s' := hyield
  split at hyield
  · cases hyield
  · obtain ⟨q, hq, hswap⟩ := Option.bind_eq_some_iff.mp hyield
    -- the context that is swapped out is that of the fiber itself
    have hown : f.context = s.stack := by
      obtain ⟨e, he, hes⟩ := stackOf_eq_some.mp hstack
      rw [hf] at he
      cases he
      exact (h.context p f hf).trans hes
    have hkept := swapcontext_eq (q := q)
      (f := { f with state := if f.state = .running then .ready else f.state })
      (s := (s.setThis s.threadFiber).setFiber p _) (Function.update_self _ _ _) hown
    obtain ⟨g, hg, henter⟩ := Option.bind_eq_some_iff.mp (hkept.symm.trans hswap)
    have hw := h.update hf (g := { f with state := if f.state = .running then .ready else f.state })
      rfl rfl (h.cur p f hf)
    refine ⟨(s.setThis s.threadFiber).setFiber p _, g, hw, rfl, rfl, ?_, henter⟩
    replace hq : s.partner f = some q := hq
    rw [hq]
    exact hg

theorem yield_sound (h : WellFormed s.fibers s.threadFiber) (hf : s.fibers p = some f)
    (hstack : s.stackOf p = some s.stack)
    (hmain : f.runInScheduler = true → s.schedulerFiber = s.threadFiber)
    (hyield : s.yield p = some s') : Sound s' := by
  obtain ⟨t, g, hw, hthread, hcurrent, hg, henter⟩ := yield_eq h hf hstack hyield
  have hpartner : s.partner f = s.threadFiber := by
    unfold partner
    split
    · rename_i hrun
      exact hmain hrun
    · rfl
  -- the partner is the main fiber, which has no stack of its own
  rw [hpartner] at hg
  obtain ⟨q, hq, hgq⟩ := Option.bind_eq_some_iff.mp hg
  have hstackless := (hw.main q g hgq).mpr hq
  rw [← hthread] at hw
  refine enter_sound hw hgq ?_ (hcurrent.trans hq) henter
  intro hown
  rw [hstackless] at hown
  cases hown

/-- Where the scheduler fiber is not the main fiber, a yield to it leaves the main fiber
current. -/
theorem yield_lost (h : WellFormed s.fibers s.threadFiber) (hf : s.fibers p = some f)
    (hstack : s.stackOf p = some s.stack) (hrun : f.runInScheduler = true)
    (hmain : s.schedulerFiber ≠ s.threadFiber) (hyield : s.yield p = some s') :
    s'.current ≠ s'.executing := by
  obtain ⟨t, g, hw, hthread, hcurrent, hg, henter⟩ := yield_eq h hf hstack hyield
  unfold partner at hg
  rw [if_pos hrun] at hg
  obtain ⟨q, hq, hgq⟩ := Option.bind_eq_some_iff.mp hg
  rw [hq] at hmain
  -- the partner has a stack, for the main fiber is another one
  have hcontext : g.context = .fiber q := by
    rw [hw.context q g hgq]
    unfold Fiber.stack
    rw [if_pos]
    by_contra hnone
    exact hmain ((hw.main q g hgq).mp (Bool.eq_false_iff.mpr hnone)).symm
  rw [hcontext, enter_fiber hgq] at henter
  cases henter
  show t.current ≠ some q
  rw [hcurrent]
  exact hmain.symm

/-- A step that yields, taken apart: the fiber executes, and what `yield` starts from is well
formed. -/
theorem yields_of_step {a : Act} (h : Sound s) (ha : a.yielder = some p)
    (hstep : step s a = some s') :
    ∃ (t : FiberThread) (f : Fiber), t.yield p = some s' ∧
      WellFormed t.fibers t.threadFiber ∧ t.fibers p = some f ∧ t.stackOf p = some t.stack ∧
      t.schedulerFiber = s.schedulerFiber ∧
      t.threadFiber = s.threadFiber ∧
      ∃ e, s.fibers p = some e ∧ f.runInScheduler = e.runInScheduler := by
  cases a with
  | yield p' =>
    cases ha
    replace hstep : (if s.current = some p ∨ s.stackOf p = some s.stack then s.yield p else none) =
      some s' := hstep
    split at hstep
    · rename_i hguard
      -- the current fiber and the one on the stack in use are the same
      obtain ⟨f, hf, -⟩ := Option.bind_eq_some_iff.mp hstep
      refine ⟨s, f, hstep, h.wellFormed, hf, ?_, rfl, rfl, f, hf, rfl⟩
      rcases hguard with hcurrent | hstack
      · exact stackOf_of_current h hf hcurrent
      · exact hstack
    · cases hstep
  | finish p' =>
    cases ha
    obtain ⟨f, hf, hif⟩ := Option.bind_eq_some_iff.mp hstep
    split at hif
    · rename_i hcur
      refine ⟨_, _, hif, h.wellFormed.update hf rfl rfl (h.wellFormed.cur p f hf),
        Function.update_self _ _ _, ?_, rfl, rfl, f, hf, rfl⟩
      exact (stackOf_setFiber (g := { f with state := .term }) hf rfl).trans
        (stackOf_of_current h hf (current_of_localCur h hcur))
    · cases hif
  | getThis _ _ => cases ha
  | newFiber _ _ _ => cases ha
  | reset _ => cases ha
  | destroy _ => cases ha
  | resume _ => cases ha
  | newScheduler _ _ _ _ => cases ha
  | endScheduler => cases ha
  | run _ _ => cases ha

/-- A step keeps the invariant when a fiber that yields to the scheduler fiber yields to the main
fiber. -/
theorem step_sound {a : Act} (h : Sound s) (hmain : YieldsToMain s a)
    (hstep : step s a = some s') : Sound s' := by
  -- `yield` and the end of a fiber are the steps that the condition is about
  have hyield : ∀ p, a.yielder = some p → Sound s' := by
    intro p ha
    obtain ⟨t, f, hyield, hw, hf, hstack, hsched, hthread, e, he, hrun⟩ :=
      yields_of_step h ha hstep
    refine yield_sound hw hf hstack ?_ hyield
    intro hf'
    rw [hsched, hthread]
    exact hmain p e ha he (hrun.symm.trans hf')
  cases a with
  | getThis p id => exact getThis_sound h hstep
  | newFiber p id runInScheduler => exact newFiber_sound h hstep
  | reset p => exact reset_sound h hstep
  | destroy p => exact destroy_sound h hstep
  | resume p => exact resume_sound h hstep
  | yield p => exact hyield p rfl
  | finish p => exact hyield p rfl
  | newScheduler p id q rootId =>
    obtain ⟨t, ht, hif⟩ := Option.bind_eq_some_iff.mp hstep
    split at hif
    · cases hif
    · obtain ⟨u, hu, hsome⟩ := Option.bind_eq_some_iff.mp hif
      have hu' := newFiber_sound (getThis_sound h ht) hu
      cases hsome
      exact ⟨hu'.wellFormed, hu'.current, hu'.running⟩
  | endScheduler =>
    cases hstep
    exact ⟨h.wellFormed, h.current, h.running⟩
  | run p id =>
    replace hstep : (if s.stack = .thread then _ else none) = some s' := hstep
    split at hstep
    · obtain ⟨t, ht, hsome⟩ := Option.bind_eq_some_iff.mp hstep
      have ht' := getThis_sound h ht
      cases hsome
      exact ⟨ht'.wellFormed, ht'.current, ht'.running⟩
    · cases hstep

theorem identified_iff_of_step {a : Act} (h : Sound s) (hstep : step s a = some s') :
    Identified s' ↔ YieldsToMain s a := by
  constructor
  · intro hident p f ha hf hrun
    by_contra hmain
    -- `yield` makes the main fiber current and goes on with another one
    obtain ⟨t, f', hyield, hw, hf', hstack, hsched, hthread, e, he, hrun'⟩ :=
      yields_of_step h ha hstep
    rw [hf] at he
    cases he
    rw [← hsched, ← hthread] at hmain
    exact yield_lost hw hf' hstack (hrun'.trans hrun) hmain hyield hident.current
  · exact fun hmain => (step_sound h hmain hstep).identified

theorem sound_init : Sound {} := by
  refine ⟨⟨?_, ?_, ?_, ?_⟩, rfl, ?_⟩
  · intro p f hf
    cases hf
  · intro p hp
    cases hp
  · intro p f hf
    cases hf
  · intro p f hf
    cases hf
  · intro p hp
    cases hp

end Steps

/-- **The current fiber.**  In every run of a thread `t_fiber` is the fiber that executes after each
step, exactly when no fiber that takes part in scheduling yields while the scheduler fiber is not
the main fiber. -/
theorem identified_iff (acts : List Act) (hrun : (runFrom step {} acts).isSome) :
    AllSteps step (fun s a => ∀ s', step s a = some s' → Identified s') {} acts ↔
      AllSteps step YieldsToMain {} acts := by
  refine allSteps_iff ?_ (fun s a s' h hmain hstep => step_sound h hmain hstep) sound_init hrun
  intro s a s' h hstep
  rw [← identified_iff_of_step h hstep]
  constructor
  · exact fun hall => hall s' hstep
  · intro hident t ht
    rw [hstep] at ht
    cases ht
    exact hident

/-- A worker thread runs a task, which yields and is then resumed to its end. -/
theorem identified_worker :
    let acts : List Act := [.run 1 0, .newFiber 2 1 true, .resume 2, .yield 2, .resume 2, .finish 2]
    AllSteps step (fun s a => ∀ s', step s a = some s' → Identified s') {} acts :=
  (identified_iff _ (by decide)).mpr (by decide)

/-- A task of the caller thread yields to the scheduler fiber, and the main fiber is current. -/
theorem unidentified_caller :
    ¬ ∀ acts, (runFrom step {} acts).isSome →
      AllSteps step (fun s a => ∀ s', step s a = some s' → Identified s') {} acts := by
  intro h
  have hall := h [.newScheduler 1 0 2 1, .newFiber 3 2 true, .resume 2, .resume 3, .yield 3]
    (by decide)
  have hlast := ((((hall.2 _ rfl).2 _ rfl).2 _ rfl).2 _ rfl).1 _ rfl
  exact absurd hlast.current (by decide)

end FiberThread

end Luwu
