import Luwu.IOManager.Stop

/-!
# Nothing is dropped

A worker's test of `stopping ()` is out of date when a timer is added after it has read the timer
set, or an event after it has read `m_pendingEventCount`.  This does no harm as long as some other
worker is still to test, and that is what the invariant says; the worker that ends its idle fiber
last has then tested after everything was done.
-/

namespace Luwu.Stop

open Lib

variable {n : Nat} {κ : Type}

/-! ## Places -/

/-- The worker counts in `m_activeThreadCount`. -/
def Pc.busy : Pc → Nat
  | .running => 1
  | .cancelling => 1
  | .finished => 1
  | _ => 0

/-- The worker owes a `--m_pendingEventCount`. -/
def Pc.owes : Pc → Nat
  | .cancelling => 1
  | .triggered => 1
  | _ => 0

/-- The worker holds `m_mutex`. -/
def Pc.locks : Pc → Nat
  | .took => 1
  | _ => 0

/-- The worker executes its idle fiber. -/
def Pc.inIdle : Pc → Bool
  | .test => true
  | .noTimer => true
  | .noEvent => true
  | .waiting => true
  | .handling _ => true
  | .triggered => true
  | _ => false

/-- The worker has read the timer set as empty in a test under way. -/
def Pc.sawTimers : Pc → Bool
  | .noTimer => true
  | .noEvent => true
  | _ => false

/-- The worker has read `m_pendingEventCount` as 0 in a test under way. -/
def Pc.sawEvents : Pc → Bool
  | .noEvent => true
  | _ => false

theorem saw_of_not_inIdle {pc : Pc} (h : pc.inIdle = false) :
    pc.sawTimers = false ∧ pc.sawEvents = false := by
  cases pc <;> first | exact ⟨rfl, rfl⟩ | cases h

theorem sawEvents_of_not_sawTimers {pc : Pc} (h : pc.sawTimers = false) : pc.sawEvents = false := by
  cases pc <;> first | rfl | cases h

theorem counts_of_inIdle {pc : Pc} (h : pc.inIdle = true) : pc.busy = 0 ∧ pc.locks = 0 := by
  cases pc <;> first | exact ⟨rfl, rfl⟩ | cases h

def total (f : Pc → Nat) (ws : Fin n → Worker) : Nat := ∑ w, f (ws w).pc

theorem total_update (f : Pc → Nat) (ws : Fin n → Worker) (w : Fin n) (x : Worker) :
    total f (Function.update ws w x) + f (ws w).pc = total f ws + f x.pc :=
  sum_update (fun y : Worker => f y.pc) ws w x

theorem le_total (f : Pc → Nat) (ws : Fin n → Worker) (w : Fin n) : f (ws w).pc ≤ total f ws :=
  le_sum (fun v => f (ws v).pc) w

/-! ## The invariant -/

/-- A worker that is still to test `stopping ()` from the beginning: its idle fiber has not ended,
and it is not in the middle of a test that has passed `saw`. -/
def Untested (s : Stop n κ) (saw : Pc → Bool) : Prop :=
  ∃ w, (s.workers w).term = false ∧ saw (s.workers w).pc = false

/-- Nothing is left to do, and nobody may add to it. -/
structure Over (s : Stop n κ) : Prop where
  queue : s.queue = []
  active : s.active = 0
  timers : s.timers = 0
  pending : s.pending = 0
  stopping : s.stopping = true
  locked : s.locked = false

structure Inv (s : Stop n κ) : Prop where
  active_eq : s.active = total Pc.busy s.workers
  pending_eq : s.pending = s.armed + total Pc.owes s.workers
  locked_eq : s.locked.toNat = total Pc.locks s.workers
  left_term : ∀ w, (s.workers w).pc = .left → (s.workers w).term = true
  idle_live : ∀ w, (s.workers w).pc.inIdle = true → (s.workers w).term = false
  timers_seen : ∀ w, (s.workers w).pc.sawTimers = true → s.timers ≠ 0 → Untested s Pc.sawTimers
  events_seen : ∀ w, (s.workers w).pc.sawEvents = true → s.pending ≠ 0 → Untested s Pc.sawEvents
  ended : (∀ w, (s.workers w).term = true) → Over s

/-- At least one worker: with none there is nobody to leave. -/
theorem init_inv (hn : 0 < n) : Inv (init : Stop n κ) where
  active_eq := by simp [init, total, Pc.busy]
  pending_eq := by simp [init, total, Pc.owes]
  locked_eq := by simp [init, total, Pc.locks]
  left_term w h := by cases h
  idle_live w h := by cases h
  timers_seen w h := by cases h
  events_seen w h := by cases h
  ended h := by cases h ⟨0, hn⟩

namespace Inv

variable {s s' : Stop n κ}

/-- While a worker executes a task something is left to do. -/
theorem not_over (h : Inv s) {w : Fin n} (hw : (s.workers w).pc.busy = 1) : ¬ Over s := by
  intro ho
  have hle := le_total Pc.busy s.workers w
  rw [← h.active_eq, ho.active, hw] at hle
  exact absurd hle (by decide)

theorem locked_of_took (h : Inv s) {w : Fin n} (hw : (s.workers w).pc = .took) :
    s.locked = true := by
  have hle := le_total Pc.locks s.workers w
  rw [← h.locked_eq, hw] at hle
  cases hl : s.locked with
  | true => rfl
  | false =>
    rw [hl] at hle
    exact absurd hle (by decide)

/-- What a worker owes to `m_pendingEventCount` is counted there. -/
theorem pending_pos (h : Inv s) {w : Fin n} (hw : (s.workers w).pc.owes = 1) : 0 < s.pending := by
  have hle := le_total Pc.owes s.workers w
  have heq := h.pending_eq
  omega

theorem active_pos (h : Inv s) {w : Fin n} (hw : (s.workers w).pc.busy = 1) : 0 < s.active := by
  have hle := le_total Pc.busy s.workers w
  have heq := h.active_eq
  omega

theorem move (h : Inv s) (w : Fin n) {pc : Pc}
    (hworkers : s'.workers = Function.update s.workers w { s.workers w with pc })
    (hactive : s'.active + (s.workers w).pc.busy = s.active + pc.busy)
    (hpending : s'.pending + s.armed + (s.workers w).pc.owes = s.pending + s'.armed + pc.owes)
    (hlocked : s'.locked.toNat + (s.workers w).pc.locks = s.locked.toNat + pc.locks)
    (hleft : pc = .left → (s.workers w).term = true)
    (hidle : pc.inIdle = true → (s.workers w).term = false)
    (htimers : s'.timers ≠ 0 → s.timers ≠ 0 ∧
      (pc.sawTimers = true → (s.workers w).pc.sawTimers = true))
    (hevents : s'.pending ≠ 0 → s.pending ≠ 0 ∧
      (pc.sawEvents = true → (s.workers w).pc.sawEvents = true))
    (hover : (∀ v, (s.workers v).term = true) → Over s → Over s') : Inv s' := by
  have hterm : ∀ v, (s'.workers v).term = (s.workers v).term := by
    intro v
    rw [hworkers]
    by_cases hv : v = w
    · subst hv
      rw [Function.update_self]
    · rw [Function.update_of_ne hv]
  have hself : (s'.workers w).pc = pc := by rw [hworkers, Function.update_self]
  have hother : ∀ v, v ≠ w → (s'.workers v).pc = (s.workers v).pc := by
    intro v hv
    rw [hworkers, Function.update_of_ne hv]
  -- a test under way was under way before, and whoever was still to test still is
  have huntested : ∀ saw : Pc → Bool, (saw pc = true → saw (s.workers w).pc = true) →
      Untested s saw → Untested s' saw := by
    rintro saw hsaw ⟨v, hv, hvs⟩
    refine ⟨v, by rw [hterm]; exact hv, ?_⟩
    by_cases hvw : v = w
    · subst hvw
      rw [hself]
      cases hp : saw pc with
      | false => rfl
      | true =>
        rw [hsaw hp] at hvs
        cases hvs
    · rw [hother v hvw]
      exact hvs
  have hseen : ∀ saw : Pc → Bool, (saw pc = true → saw (s.workers w).pc = true) →
      ∀ v, saw (s'.workers v).pc = true → saw (s.workers v).pc = true := by
    intro saw hsaw v hv
    by_cases hvw : v = w
    · subst hvw
      rw [hself] at hv
      exact hsaw hv
    · rwa [hother v hvw] at hv
  refine ⟨?_, ?_, ?_, ?_, ?_, ?_, ?_, ?_⟩
  · have hsum := total_update Pc.busy s.workers w { s.workers w with pc }
    rw [← hworkers] at hsum
    have := h.active_eq
    simp only at hsum
    omega
  · have hsum := total_update Pc.owes s.workers w { s.workers w with pc }
    rw [← hworkers] at hsum
    have := h.pending_eq
    simp only at hsum
    omega
  · have hsum := total_update Pc.locks s.workers w { s.workers w with pc }
    rw [← hworkers] at hsum
    have := h.locked_eq
    simp only at hsum
    omega
  · intro v hv
    rw [hterm]
    by_cases hvw : v = w
    · subst hvw
      rw [hself] at hv
      exact hleft hv
    · rw [hother v hvw] at hv
      exact h.left_term v hv
  · intro v hv
    rw [hterm]
    by_cases hvw : v = w
    · subst hvw
      rw [hself] at hv
      exact hidle hv
    · rw [hother v hvw] at hv
      exact h.idle_live v hv
  · intro v hv ht
    obtain ⟨ht', hsaw⟩ := htimers ht
    exact huntested _ hsaw (h.timers_seen v (hseen _ hsaw v hv) ht')
  · intro v hv he
    obtain ⟨he', hsaw⟩ := hevents he
    exact huntested _ hsaw (h.events_seen v (hseen _ hsaw v hv) he')
  · intro hall
    have hall' : ∀ v, (s.workers v).term = true := fun v => by rw [← hterm]; exact hall v
    exact hover hall' (h.ended hall')

/-- A worker goes from one place to another, and nothing else changes. -/
theorem setPc (h : Inv s) {w : Fin n} {old : Pc} (hw : (s.workers w).pc = old) (pc : Pc)
    (hcounts : pc.busy = old.busy ∧ pc.owes = old.owes ∧ pc.locks = old.locks)
    (hleft : pc = .left → (s.workers w).term = true)
    (hidle : pc.inIdle = true → (s.workers w).term = false)
    (htimers : s.timers ≠ 0 → pc.sawTimers = true → old.sawTimers = true)
    (hevents : s.pending ≠ 0 → pc.sawEvents = true → old.sawEvents = true) :
    Inv (s.setPc w pc) := by
  obtain ⟨hbusy, howes, hlocks⟩ := hcounts
  subst hw
  refine h.move w rfl (by rw [hbusy]; rfl) (by rw [howes]; rfl) (by rw [hlocks]; rfl) hleft hidle
    (fun ht => ⟨ht, htimers ht⟩) (fun he => ⟨he, hevents he⟩) ?_
  exact fun _ ho => ⟨ho.queue, ho.active, ho.timers, ho.pending, ho.stopping, ho.locked⟩

/-- A worker goes on in `run`, where something was left to do. -/
theorem moveTask (h : Inv s) {w : Fin n} {old pc : Pc} (hw : (s.workers w).pc = old)
    (hworkers : s'.workers = Function.update s.workers w { s.workers w with pc })
    (hpc : pc.inIdle = false ∧ pc ≠ .left)
    (hactive : s'.active + old.busy = s.active + pc.busy)
    (hpending : s'.pending + s.armed + old.owes = s.pending + s'.armed + pc.owes)
    (hlocked : s'.locked.toNat + old.locks = s.locked.toNat + pc.locks)
    (htimers : s'.timers = s.timers) (hevents : s'.pending ≤ s.pending) (hno : ¬ Over s) :
    Inv s' := by
  subst hw
  have hsaw : pc.sawTimers = false ∧ pc.sawEvents = false := saw_of_not_inIdle hpc.1
  refine h.move w hworkers hactive hpending hlocked (fun hl => absurd hl hpc.2) ?_ ?_ ?_
    fun _ ho => absurd ho hno
  · intro hi
    rw [hpc.1] at hi
    cases hi
  · exact fun ht => ⟨by omega, by rw [hsaw.1]; exact nofun⟩
  · exact fun he => ⟨by omega, by rw [hsaw.2]; exact nofun⟩

/-- A worker goes on in its idle fiber, outside of a test. -/
theorem moveIdle (h : Inv s) {w : Fin n} {old pc : Pc} (hw : (s.workers w).pc = old)
    (hworkers : s'.workers = Function.update s.workers w { s.workers w with pc })
    (hold : old.inIdle = true) (hpc : pc.inIdle = true ∧ pc.sawTimers = false)
    (hactive : s'.active = s.active)
    (hpending : s'.pending + s.armed + old.owes = s.pending + s'.armed + pc.owes)
    (hlocked : s'.locked = s.locked)
    (htimers : s'.timers ≤ s.timers) (hevents : s'.pending ≤ s.pending) : Inv s' := by
  subst hw
  obtain ⟨hbusy, hlocks⟩ := counts_of_inIdle hold
  obtain ⟨hbusy', hlocks'⟩ := counts_of_inIdle hpc.1
  have hlive := h.idle_live w hold
  refine h.move w hworkers ?_ hpending ?_ ?_ (fun _ => hlive) ?_ ?_ ?_
  · rw [hactive, hbusy, hbusy']
  · rw [hlocked, hlocks, hlocks']
  · rintro rfl
    cases hpc.1
  · exact fun ht => ⟨by omega, by rw [hpc.2]; exact nofun⟩
  · exact fun he => ⟨by omega, by rw [sawEvents_of_not_sawTimers hpc.2]; exact nofun⟩
  · intro hall
    -- its own idle fiber has not ended
    rw [hall w] at hlive
    cases hlive

theorem stay (h : Inv s) (hworkers : s'.workers = s.workers) (hactive : s'.active = s.active)
    (hpending : s'.pending + s.armed = s.pending + s'.armed) (hlocked : s'.locked = s.locked)
    (htimers : ∀ w, (s.workers w).pc.sawTimers = true → s'.timers ≠ 0 → Untested s Pc.sawTimers)
    (hevents : ∀ w, (s.workers w).pc.sawEvents = true → s'.pending ≠ 0 → Untested s Pc.sawEvents)
    (hover : Over s → Over s') : Inv s' := by
  -- the workers that have not tested are the same
  have huntested : ∀ saw, Untested s saw → Untested s' saw := by
    rintro saw ⟨w, hw⟩
    exact ⟨w, by rw [hworkers]; exact hw⟩
  refine ⟨?_, ?_, ?_, ?_, ?_, ?_, ?_, ?_⟩
  · rw [hactive, hworkers]
    exact h.active_eq
  · have := h.pending_eq
    rw [hworkers]
    omega
  · rw [hlocked, hworkers]
    exact h.locked_eq
  · rw [hworkers]
    exact h.left_term
  · rw [hworkers]
    exact h.idle_live
  · intro w hw ht
    rw [hworkers] at hw
    exact huntested _ (htimers w hw ht)
  · intro w hw he
    rw [hworkers] at hw
    exact huntested _ (hevents w hw he)
  · intro hall
    rw [hworkers] at hall
    exact hover (h.ended hall)

/-- The idle fiber of `w` ends: if it was the last one, its test has seen that all is done. -/
theorem endIdle (h : Inv s) {w : Fin n} (hw : (s.workers w).pc = .noEvent)
    (hlocked : s.locked = false) (hstop : s.stopping = true) (hqueue : s.queue = [])
    (hactive : s.active = 0) : Inv (s.endIdle w) := by
  have hself : (s.endIdle w).workers w = ⟨.top, true⟩ := Function.update_self _ _ _
  have hother : ∀ v, v ≠ w → (s.endIdle w).workers v = s.workers v := fun v hv =>
    Function.update_of_ne hv _ _
  -- whoever is still to test is another worker
  have huntested : ∀ saw : Pc → Bool, saw .noEvent = true → Untested s saw →
      Untested (s.endIdle w) saw := by
    rintro saw hsaw ⟨v, hv, hvs⟩
    have hvw : v ≠ w := by
      rintro rfl
      rw [hw, hsaw] at hvs
      cases hvs
    exact ⟨v, by rw [hother v hvw]; exact hv, by rw [hother v hvw]; exact hvs⟩
  have hsum : ∀ f : Pc → Nat, f .noEvent = 0 → f .top = 0 →
      total f (s.endIdle w).workers = total f s.workers := by
    intro f h₁ h₂
    have := total_update f s.workers w ⟨.top, true⟩
    rw [hw] at this
    change total f (Function.update s.workers w ⟨.top, true⟩) = _
    simp only at this
    omega
  refine ⟨?_, ?_, ?_, ?_, ?_, ?_, ?_, ?_⟩
  · rw [hsum _ rfl rfl]
    exact h.active_eq
  · rw [hsum _ rfl rfl]
    exact h.pending_eq
  · rw [hsum _ rfl rfl]
    exact h.locked_eq
  · intro v hv
    by_cases hvw : v = w
    · rw [hvw, hself]
    · rw [hother v hvw] at hv ⊢
      exact h.left_term v hv
  · intro v hv
    by_cases hvw : v = w
    · rw [hvw, hself] at hv
      cases hv
    · rw [hother v hvw] at hv ⊢
      exact h.idle_live v hv
  · intro v hv ht
    exact huntested _ rfl (h.timers_seen w (by rw [hw]; rfl) ht)
  · intro v hv he
    exact huntested _ rfl (h.events_seen w (by rw [hw]; rfl) he)
  · intro hall
    have hno : ∀ saw : Pc → Bool, saw .noEvent = true → ¬ Untested s saw := by
      intro saw hsaw hu
      obtain ⟨v, hv, -⟩ := huntested saw hsaw hu
      rw [hall v] at hv
      cases hv
    refine ⟨hqueue, hactive, ?_, ?_, hstop, hlocked⟩
    · by_contra ht
      exact hno _ rfl (h.timers_seen w (by rw [hw]; rfl) ht)
    · by_contra he
      exact hno _ rfl (h.events_seen w (by rw [hw]; rfl) he)

end Inv

/-! ## Steps -/

def Op.addsTimer : Op n κ → Bool
  | .addTimer => true
  | .taskAddTimer _ => true
  | _ => false

def Op.addsEvent : Op n κ → Bool
  | .addEvent => true
  | .taskAddEvent _ => true
  | _ => false

/-- The condition on a step: when it adds a timer, the workers that have read the timer set as empty
in a test under way are not all that are still to end; when it registers an event, the same of
`m_pendingEventCount`. -/
def AddsSeen (s : Stop n κ) (op : Op n κ) : Prop :=
  (op.addsTimer = true → ∀ w, (s.workers w).pc.sawTimers = true → Untested s Pc.sawTimers) ∧
    (op.addsEvent = true → ∀ w, (s.workers w).pc.sawEvents = true → Untested s Pc.sawEvents)

namespace Inv

variable {s : Stop n κ} {w : Fin n}

/-! ### What changes no worker -/

theorem push (h : Inv s) (hno : ¬ Over s) (t : Scheduler.SchedulerTask κ) : Inv (s.push t) :=
  h.stay rfl rfl rfl rfl h.timers_seen h.events_seen fun ho => absurd ho hno

theorem addTimer (h : Inv s) (hno : ¬ Over s)
    (hseen : ∀ w, (s.workers w).pc.sawTimers = true → Untested s Pc.sawTimers) :
    Inv { s with timers := s.timers + 1 } :=
  h.stay rfl rfl rfl rfl (fun w hw _ => hseen w hw) h.events_seen fun ho => absurd ho hno

theorem addEvent (h : Inv s) (hno : ¬ Over s)
    (hseen : ∀ w, (s.workers w).pc.sawEvents = true → Untested s Pc.sawEvents) :
    Inv { s with armed := s.armed + 1, pending := s.pending + 1 } :=
  h.stay rfl rfl (by dsimp only; omega) rfl h.timers_seen (fun w hw _ => hseen w hw)
    fun ho => absurd ho hno

theorem stop (h : Inv s) : Inv { s with stopping := true } :=
  h.stay rfl rfl rfl rfl h.timers_seen h.events_seen fun ho =>
    ⟨ho.queue, ho.active, ho.timers, ho.pending, rfl, ho.locked⟩

theorem cancelTimer (h : Inv s) (hno : ¬ Over s) : Inv { s with timers := s.timers - 1 } := by
  refine h.stay rfl rfl rfl rfl (fun v hv ht => h.timers_seen v hv ?_) h.events_seen
    fun ho => absurd ho hno
  dsimp only at ht
  omega

theorem delEvent (h : Inv s) (hno : ¬ Over s) (harmed : 0 < s.armed) :
    Inv { s with armed := s.armed - 1, pending := s.pending - 1 } := by
  have heq := h.pending_eq
  refine h.stay rfl rfl (by dsimp only; omega) rfl h.timers_seen
    (fun v hv he => h.events_seen v hv ?_) fun ho => absurd ho hno
  dsimp only at he
  omega

/-! ### A worker in `run` -/

theorem dequeue (h : Inv s) (hw : (s.workers w).pc = .top) (hl : s.locked = false)
    {t : Scheduler.SchedulerTask κ} {rest : List (Scheduler.SchedulerTask κ)}
    (ht : Scheduler.take w s.queue = some (t, rest)) :
    Inv ({ s with queue := rest, locked := true }.setPc w .took) := by
  refine h.moveTask hw rfl ⟨rfl, by decide⟩ rfl rfl (by rw [hl]; rfl) rfl (Nat.le_refl _) ?_
  intro ho
  rw [ho.queue] at ht
  cases ht

theorem dequeue_none (h : Inv s) (hw : (s.workers w).pc = .top) : Inv (s.setPc w .noTask) :=
  h.setPc hw .noTask ⟨rfl, rfl, rfl⟩ nofun nofun nofun nofun

theorem activate (h : Inv s) (hw : (s.workers w).pc = .took) :
    Inv ({ s with active := s.active + 1, locked := false }.setPc w .running) := by
  have hl := h.locked_of_took hw
  refine h.moveTask hw rfl ⟨rfl, by decide⟩ rfl rfl (by rw [hl]; rfl) rfl (Nat.le_refl _) ?_
  intro ho
  rw [ho.locked] at hl
  cases hl

theorem cancelEvent (h : Inv s) (hw : (s.workers w).pc = .running) (harmed : 0 < s.armed)
    (t : Scheduler.SchedulerTask κ) :
    Inv (({ s with armed := s.armed - 1 }.push t).setPc w .cancelling) := by
  refine h.moveTask hw rfl ⟨rfl, by decide⟩ rfl ?_ rfl rfl (Nat.le_refl _)
    (h.not_over (by rw [hw]; rfl))
  show s.pending + s.armed + 0 = s.pending + (s.armed - 1) + 1
  omega

theorem cancelled (h : Inv s) (hw : (s.workers w).pc = .cancelling) :
    Inv ({ s with pending := s.pending - 1 }.setPc w .running) := by
  have hpos := h.pending_pos (w := w) (by rw [hw]; rfl)
  refine h.moveTask hw rfl ⟨rfl, by decide⟩ rfl ?_ rfl rfl (Nat.sub_le _ _)
    (h.not_over (by rw [hw]; rfl))
  show s.pending - 1 + s.armed + 1 = s.pending + s.armed + 0
  omega

theorem finish (h : Inv s) (hw : (s.workers w).pc = .running) : Inv (s.setPc w .finished) :=
  h.setPc hw .finished ⟨rfl, rfl, rfl⟩ nofun nofun nofun nofun

theorem deactivate (h : Inv s) (hw : (s.workers w).pc = .finished) :
    Inv ({ s with active := s.active - 1 }.setPc w .top) := by
  have hpos := h.active_pos (w := w) (by rw [hw]; rfl)
  refine h.moveTask hw rfl ⟨rfl, by decide⟩ ?_ rfl rfl rfl (Nat.le_refl _)
    (h.not_over (by rw [hw]; rfl))
  show s.active - 1 + 1 = s.active + 0
  omega

theorem idle (h : Inv s) (hw : (s.workers w).pc = .noTask) :
    Inv (s.setPc w (if (s.workers w).term then .left else .test)) := by
  cases hterm : (s.workers w).term with
  | true => exact h.setPc hw .left ⟨rfl, rfl, rfl⟩ (fun _ => hterm) nofun nofun nofun
  | false => exact h.setPc hw .test ⟨rfl, rfl, rfl⟩ nofun (fun _ => hterm) nofun nofun

/-! ### A worker in its idle fiber -/

theorem readTimers (h : Inv s) (hw : (s.workers w).pc = .test) :
    Inv (s.setPc w (if s.timers = 0 then .noTimer else .waiting)) := by
  have hlive := h.idle_live w (by rw [hw]; rfl)
  split
  · next ht =>
    exact h.setPc hw .noTimer ⟨rfl, rfl, rfl⟩ nofun (fun _ => hlive) (fun hne => absurd ht hne)
      nofun
  · exact h.setPc hw .waiting ⟨rfl, rfl, rfl⟩ nofun (fun _ => hlive) nofun nofun

theorem readPending (h : Inv s) (hw : (s.workers w).pc = .noTimer) :
    Inv (s.setPc w (if s.pending = 0 then .noEvent else .waiting)) := by
  have hlive := h.idle_live w (by rw [hw]; rfl)
  split
  · next he =>
    exact h.setPc hw .noEvent ⟨rfl, rfl, rfl⟩ nofun (fun _ => hlive) (fun _ _ => rfl)
      (fun hne => absurd he hne)
  · exact h.setPc hw .waiting ⟨rfl, rfl, rfl⟩ nofun (fun _ => hlive) nofun nofun

theorem readQueue (h : Inv s) (hw : (s.workers w).pc = .noEvent) : Inv (s.setPc w .waiting) :=
  h.setPc hw .waiting ⟨rfl, rfl, rfl⟩ nofun (fun _ => h.idle_live w (by rw [hw]; rfl)) nofun nofun

theorem expire (h : Inv s) (hw : (s.workers w).pc = .waiting) (once again : Nat) :
    Inv ({ s with timers := s.timers - once }.setPc w (.handling (once + again))) :=
  h.moveIdle hw rfl rfl ⟨rfl, rfl⟩ rfl rfl rfl (Nat.sub_le _ _) (Nat.le_refl _)

theorem pushCb (h : Inv s) {k : Nat} (hw : (s.workers w).pc = .handling (k + 1))
    (t : Scheduler.SchedulerTask κ) : Inv ((s.push t).setPc w (.handling k)) :=
  h.moveIdle hw rfl rfl ⟨rfl, rfl⟩ rfl rfl rfl (Nat.le_refl _) (Nat.le_refl _)

theorem trigger (h : Inv s) (hw : (s.workers w).pc = .handling 0) (harmed : 0 < s.armed)
    (t : Scheduler.SchedulerTask κ) :
    Inv (({ s with armed := s.armed - 1 }.push t).setPc w .triggered) := by
  refine h.moveIdle hw rfl rfl ⟨rfl, rfl⟩ rfl ?_ rfl (Nat.le_refl _) (Nat.le_refl _)
  show s.pending + s.armed + 0 = s.pending + (s.armed - 1) + 1
  omega

theorem triggered (h : Inv s) (hw : (s.workers w).pc = .triggered) :
    Inv ({ s with pending := s.pending - 1 }.setPc w (.handling 0)) := by
  have hpos := h.pending_pos (w := w) (by rw [hw]; rfl)
  refine h.moveIdle hw rfl rfl ⟨rfl, rfl⟩ rfl ?_ rfl (Nat.le_refl _) (Nat.sub_le _ _)
  show s.pending - 1 + s.armed + 1 = s.pending + s.armed + 0
  omega

theorem yield (h : Inv s) (hw : (s.workers w).pc = .handling 0) : Inv (s.setPc w .top) :=
  h.setPc hw .top ⟨rfl, rfl, rfl⟩ nofun nofun nofun nofun

end Inv

theorem not_over_of_not_stopping {s : Stop n κ} (hs : s.stopping = false) : ¬ Over s := by
  intro ho
  rw [ho.stopping] at hs
  cases hs

theorem of_guard {p : Prop} [Decidable p] {s t : Stop n κ}
    (h : (if p then some s else none) = some t) : p ∧ s = t := by
  obtain ⟨hp, h⟩ := Option.ite_none_right_eq_some.mp h
  exact ⟨hp, Option.some_inj.mp h⟩

theorem step_inv (s : Stop n κ) (op : Op n κ) (s' : Stop n κ) (h : Inv s) (hc : AddsSeen s op)
    (hs : step s op = some s') : Inv s' := by
  have hrunning {w : Fin n} (hw : (s.workers w).pc = .running) : ¬ Over s :=
    h.not_over (by rw [hw]; rfl)
  cases op with
  | push t =>
    obtain ⟨hg, rfl⟩ := of_guard hs
    rw [Bool.and_eq_true, Bool.not_eq_true'] at hg
    exact h.push (not_over_of_not_stopping hg.1) t
  | addTimer =>
    obtain ⟨hg, rfl⟩ := of_guard hs
    exact h.addTimer (not_over_of_not_stopping (Bool.not_eq_true' _ ▸ hg)) (hc.1 rfl)
  | addEvent =>
    obtain ⟨hg, rfl⟩ := of_guard hs
    exact h.addEvent (not_over_of_not_stopping (Bool.not_eq_true' _ ▸ hg)) (hc.2 rfl)
  | stop =>
    cases hs
    exact h.stop
  | dequeue w =>
    obtain ⟨⟨hw, hl⟩, hs⟩ := Option.ite_none_right_eq_some.mp hs
    cases ht : Scheduler.take w s.queue with
    | none =>
      rw [ht] at hs
      cases hs
      exact h.dequeue_none hw
    | some found =>
      rw [ht] at hs
      cases hs
      exact h.dequeue hw hl ht
  | activate w =>
    obtain ⟨hw, rfl⟩ := of_guard hs
    exact h.activate hw
  | taskPush w t =>
    obtain ⟨hg, rfl⟩ := of_guard hs
    exact h.push (hrunning hg.1) t
  | taskAddTimer w =>
    obtain ⟨hw, rfl⟩ := of_guard hs
    exact h.addTimer (hrunning hw) (hc.1 rfl)
  | taskCancelTimer w =>
    obtain ⟨hg, rfl⟩ := of_guard hs
    exact h.cancelTimer (hrunning hg.1)
  | taskAddEvent w =>
    obtain ⟨hw, rfl⟩ := of_guard hs
    exact h.addEvent (hrunning hw) (hc.2 rfl)
  | taskDelEvent w =>
    obtain ⟨hg, rfl⟩ := of_guard hs
    exact h.delEvent (hrunning hg.1) hg.2
  | taskCancelEvent w t =>
    obtain ⟨⟨hw, harmed, -⟩, rfl⟩ := of_guard hs
    exact h.cancelEvent hw harmed t
  | taskCancelled w =>
    obtain ⟨hw, rfl⟩ := of_guard hs
    exact h.cancelled hw
  | finish w =>
    obtain ⟨hw, rfl⟩ := of_guard hs
    exact h.finish hw
  | deactivate w =>
    obtain ⟨hw, rfl⟩ := of_guard hs
    exact h.deactivate hw
  | idle w =>
    obtain ⟨hw, rfl⟩ := of_guard hs
    exact h.idle hw
  | readTimers w =>
    obtain ⟨hw, rfl⟩ := of_guard hs
    exact h.readTimers hw
  | readPending w =>
    obtain ⟨hw, rfl⟩ := of_guard hs
    exact h.readPending hw
  | readQueue w =>
    obtain ⟨⟨hw, hl⟩, hs⟩ := Option.ite_none_right_eq_some.mp hs
    split at hs
    · next hdone =>
      cases hs
      exact h.endIdle hw hl hdone.1 hdone.2.1 hdone.2.2
    · cases hs
      exact h.readQueue hw
  | expire w once again =>
    obtain ⟨hg, rfl⟩ := of_guard hs
    exact h.expire hg.1 once again
  | pushCb w t =>
    simp only [step] at hs
    split at hs
    · next k hw =>
      obtain ⟨-, rfl⟩ := of_guard hs
      exact h.pushCb hw t
    · cases hs
  | trigger w t =>
    obtain ⟨⟨hw, harmed, -⟩, rfl⟩ := of_guard hs
    exact h.trigger hw harmed t
  | triggered w =>
    obtain ⟨hw, rfl⟩ := of_guard hs
    exact h.triggered hw
  | yield w =>
    obtain ⟨hw, rfl⟩ := of_guard hs
    exact h.yield hw

/-! ## Runs -/

/-- **Nothing is dropped.**  In every interleaving in which a timer is added only while some worker
has yet to read the timer set in the test that ends its idle fiber, and an event only while some
worker has yet to read `m_pendingEventCount` there, once all workers have left `run` the queue and
the timer set are empty and no event is pending. -/
theorem nothing_dropped (hn : 0 < n) (ops : List (Op n κ)) (s : Stop n κ)
    (hc : AllSteps step AddsSeen init ops) (h : runFrom step init ops = some s)
    (hleft : ∀ w, (s.workers w).pc = .left) : s.queue = [] ∧ s.timers = 0 ∧ s.pending = 0 := by
  have hinv := runFrom_guarded step_inv ops init s (init_inv hn) hc h
  have hover := hinv.ended fun w => hinv.left_term w (hleft w)
  exact ⟨hover.queue, hover.timers, hover.pending⟩

/-- A timer expires after `stop ()`, and its callback is executed before the worker leaves. -/
def drainTimer : List (Op 1 Unit) :=
  let w := Fin.last 0
  [.addTimer, .dequeue w, .idle w, .readTimers w, .stop, .expire w 1 0, .pushCb w ⟨.cb (), none⟩,
    .yield w, .dequeue w, .activate w, .finish w, .deactivate w, .dequeue w, .idle w,
    .readTimers w, .readPending w, .readQueue w, .dequeue w, .idle w]

theorem nothing_dropped_drainTimer :
    ∃ s, runFrom step init drainTimer = some s ∧ (∀ w, (s.workers w).pc = .left) ∧
      s.queue = [] ∧ s.timers = 0 ∧ s.pending = 0 := by
  have hadd : AllSteps step AddsSeen init drainTimer := by
    refine ⟨⟨fun _ w hw => (by cases hw), nofun⟩, fun s₁ _ => ?_⟩
    -- nothing is added after the first step
    have hrest : ∀ op ∈ drainTimer.tail, op.addsTimer = false ∧ op.addsEvent = false := by decide
    apply allSteps_of_mem
    intro op hop s
    obtain ⟨ht, he⟩ := hrest op hop
    constructor
    · intro hc
      rw [ht] at hc
      cases hc
    · intro hc
      rw [he] at hc
      cases hc
  exact ⟨_, rfl, by decide, nothing_dropped (by decide) drainTimer _ hadd rfl (by decide)⟩

/-- Two ways to lose a timer.  A worker has read the timer set as empty when another thread adds a
timer and calls `stop ()`; the rest of the worker's test passes.  And with two workers: the first
one ends its idle fiber while the second one has the callback of an expired timer in hand, then
takes that callback from the queue; the callback adds a timer after the second worker has read the
timer set and is done before it reads the queue. -/
theorem timer_dropped :
    (∃ s : Stop 1 Unit,
      runFrom step init [.dequeue 0, .idle 0, .readTimers 0, .addTimer, .stop, .readPending 0,
        .readQueue 0, .dequeue 0, .idle 0] = some s ∧
      (∀ w, (s.workers w).pc = .left) ∧ s.timers = 1) ∧
    ∃ s : Stop 2 Unit,
      runFrom step init [.addTimer, .dequeue 1, .idle 1, .readTimers 1, .stop, .expire 1 1 0,
        .dequeue 0, .idle 0, .readTimers 0, .readPending 0, .readQueue 0,
        .pushCb 1 ⟨.cb (), none⟩, .dequeue 0, .activate 0, .yield 1, .dequeue 1, .idle 1,
        .readTimers 1, .taskAddTimer 0, .finish 0, .deactivate 0, .readPending 1, .readQueue 1,
        .dequeue 0, .idle 0, .dequeue 1, .idle 1] = some s ∧
      (∀ w, (s.workers w).pc = .left) ∧ s.timers = 1 :=
  ⟨⟨_, rfl, by decide, rfl⟩, _, rfl, by decide, rfl⟩

end Luwu.Stop
