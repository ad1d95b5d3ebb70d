import Luwu.Timer.Wakeup

/-!
# The hooked `sleep` and `usleep`

A fiber that sleeps adds a timer and yields.  The timer's callback is scheduled by the thread that
finds it expired, and puts the fiber back when a worker runs it.  `World` is the timer manager with
the calls so far and the callbacks on their way; other clients use the manager as they like, but
they have no handle of a sleeper's timer, as `sleep` drops it.
-/

namespace Luwu.Sleep

open Lib TimerManager

/-- The callbacks: `[iom, fiber] () { iom->scheduler (fiber); }` of a call, by its number, and those
of other clients. -/
inductive Fn (β : Type) where
  | resume (call : Nat)
  | other (cb : β)

variable {β ω : Type}

/-! ## The hooks -/

/-- `sleep (seconds)` up to its `yield`, as call `call` on a thread with hooks. -/
def sleep (call : Nat) (seconds : UInt32) (a : Nat) (now : UInt64) : M (Fn β) ω Nat :=
  addTimer a (seconds * 1000).toUInt64 (some (.fn (.resume call))) false now

/-- `usleep (usec)` up to its `yield`. -/
def usleep (call : Nat) (usec : UInt32) (a : Nat) (now : UInt64) : M (Fn β) ω Nat :=
  addTimer a (usec / 1000).toUInt64 (some (.fn (.resume call))) false now

inductive Request where
  | sleep (seconds : UInt32)
  | usleep (usec : UInt32)
deriving DecidableEq, Repr

def Request.exec (call : Nat) (a : Nat) (now : UInt64) : Request → M (Fn β) ω Nat
  | .sleep seconds => Sleep.sleep call seconds a now
  | .usleep usec => Sleep.usleep call usec a now

/-- The milliseconds that the timer is set to. -/
def Request.ms : Request → UInt64
  | .sleep seconds => (seconds * 1000).toUInt64
  | .usleep usec => (usec / 1000).toUInt64

/-- The microseconds that were asked for. -/
def Request.micros : Request → Nat
  | .sleep seconds => seconds.toNat * 1000 * 1000
  | .usleep usec => usec.toNat

theorem Request.exec_eq (call a : Nat) (now : UInt64) (request : Request) :
    (request.exec call a now : M (Fn β) ω Nat) =
      addTimer a request.ms (some (.fn (.resume call))) false now := by
  cases request <;> rfl

/-! ## The system -/

/-- A call of one of the hooks: when it was made, and the timer it added. -/
structure Call where
  request : Request
  time : UInt64
  timer : Nat

structure World (β ω : Type) where
  manager : TimerManager (Fn β) ω
  /-- The time, in milliseconds. -/
  clock : UInt64
  calls : List Call
  /-- The callbacks that `idle` has scheduled and no worker has run. -/
  scheduled : List (Option (Callback (Fn β) ω))
  /-- The calls whose fibers have been put back, and when. -/
  woken : List (Nat × UInt64)

def World.init : World β ω :=
  { manager := TimerManager.init, clock := 0, calls := [], scheduled := [], woken := [] }

/-- The callback of a client among all callbacks. -/
def liftCallback : Callback β ω → Callback (Fn β) ω
  | .fn cb => .fn (.other cb)
  | .onTimer weakCond cb => .onTimer weakCond (cb.map .other)

/-- A client's call. -/
def liftOp : Op β ω → Op (Fn β) ω
  | .addTimer a ms cb recurring now => .addTimer a ms (cb.map liftCallback) recurring now
  | .addConditionTimer a ms cb weakCond recurring now =>
    .addConditionTimer a ms (cb.map .other) weakCond recurring now
  | .cancel a => .cancel a
  | .refresh a now => .refresh a now
  | .reset a ms fromNow now => .reset a ms fromNow now
  | .getNextTimer now => .getNextTimer now
  | .listExpiredCb now probe => .listExpiredCb now probe

/-- The timer a call is made on. -/
def handle {γ : Type} : Op γ ω → Option Nat
  | .cancel a => some a
  | .refresh a _ => some a
  | .reset a _ _ _ => some a
  | _ => none

/-- A callback puts back the fiber of a call. -/
def resumes : Option (Callback (Fn β) ω) → Option Nat
  | some (.fn (.resume call)) => some call
  | _ => none

/-- One step, with clock readings that do not decrease. -/
inductive Step (w : World β ω) : World β ω → Prop where
  /-- A fiber calls one of the hooks at the time `time`; the deadline stays below `2 ^ 64`. -/
  | call {request : Request} {time now : UInt64} {a : Nat} {m : TimerManager (Fn β) ω}
      (hclock : w.clock ≤ time) (htime : time ≤ now) (ha : w.manager.heap a = none)
      (hfits : now.toNat + request.ms.toNat < 2 ^ 64)
      (hexec : request.exec w.calls.length a now w.manager = .ok a m) :
      Step w { w with manager := m, clock := now, calls := w.calls ++ [⟨request, time, a⟩] }
  /-- Another client calls the manager or a timer of its own. -/
  | client {op : Op β ω} {m : TimerManager (Fn β) ω}
      (hstep : TimerManager.step w.manager (liftOp op) = some m)
      (hop : ∀ now probe, op ≠ .listExpiredCb now probe)
      (hown : ∀ call ∈ w.calls, handle op ≠ some call.timer)
      (hclock : ∀ now, op.reading = some now → w.clock ≤ now) :
      Step w { w with manager := m, clock := op.reading.getD w.clock }
  /-- `idle` schedules the callbacks of the expired timers. -/
  | expire {now : UInt64} {probe : Nat} {cbs : List (Option (Callback (Fn β) ω))}
      {m : TimerManager (Fn β) ω} (hclock : w.clock ≤ now) (hprobe : w.manager.heap probe = none)
      (hexpired : listExpiredCb now probe w.manager = .ok cbs m) :
      Step w { w with manager := m, clock := now, scheduled := w.scheduled ++ cbs }
  /-- A worker runs a callback that is scheduled. -/
  | run {now : UInt64} {i : Nat} {cb : Option (Callback (Fn β) ω)} (hclock : w.clock ≤ now)
      (hcb : w.scheduled[i]? = some cb) :
      Step w { w with
        clock := now
        scheduled := w.scheduled.eraseIdx i
        woken := w.woken ++ (resumes cb).toList.map (·, now) }

inductive Reachable : World β ω → Prop where
  | init : Reachable .init
  | step {w w' : World β ω} : Reachable w → Step w w' → Reachable w'

/-- In no interleaving a fiber that made the request is put back before the time asked for. -/
def SleepsEnough (β ω : Type) (request : Request) : Prop :=
  ∀ w : World β ω, Reachable w → ∀ n call t, w.calls[n]? = some call → call.request = request →
    (n, t) ∈ w.woken → call.time.toNat * 1000 + request.micros ≤ t.toNat * 1000

/-! ## What a client's call leaves of a timer -/

/-- The callback of a new timer. -/
def newCallback {γ : Type} : Op γ ω → Option (Callback γ ω)
  | .addTimer _ _ cb _ _ => cb
  | .addConditionTimer _ _ cb weakCond _ _ => some (.onTimer weakCond cb)
  | _ => none

theorem update_some {γ : Type} {heap : Nat → Option (Timer γ ω)} {a b : Nat} {t u : Timer γ ω}
    (h : Function.update heap a (some u) b = some t) : heap b = some t ∨ a = b ∧ t = u := by
  by_cases hab : b = a
  · rw [hab, Function.update_self] at h
    exact .inr ⟨hab.symm, (Option.some.inj h).symm⟩
  · rw [Function.update_of_ne hab] at h
    exact .inl h

/-- A timer is as it was, or new, or one that the call was made on. -/
theorem heap_of_step {γ : Type} {m m' : TimerManager γ ω} (h : TimerManager.Inv m) {op : Op γ ω}
    (hs : step m op = some m') (hop : ∀ now probe, op ≠ .listExpiredCb now probe) {b : Nat}
    {t : Timer γ ω} (hb : m'.heap b = some t) :
    m.heap b = some t ∨ t.cb = newCallback op ∨
      handle op = some b ∧ ∃ u, m.heap b = some u ∧ (t.cb = u.cb ∨ t.cb = none) := by
  unfold step at hs
  split at hs
  case isFalse => cases hs
  case isTrue hv =>
    cases op with
    | addTimer a ms cb recurring now =>
      obtain ⟨r, hr⟩ := drop_state hs
      rw [addTimer_eq h (by simpa [valid] using hv)] at hr
      cases hr
      -- one entry of the heap is written, for the new timer
      rw [notifyFront_heap, rearm_heap] at hb
      rcases update_some hb with hold | ⟨-, rfl⟩
      · exact .inl hold
      · exact .inr (.inl rfl)
    | addConditionTimer a ms cb weakCond recurring now =>
      obtain ⟨r, hr⟩ := drop_state hs
      rw [addConditionTimer, addTimer_eq h (by simpa [valid] using hv)] at hr
      cases hr
      rw [notifyFront_heap, rearm_heap] at hb
      rcases update_some hb with hold | ⟨-, rfl⟩
      · exact .inl hold
      · exact .inr (.inl rfl)
    | cancel a =>
      obtain ⟨u, hu⟩ := Option.isSome_iff_exists.mp (by simpa [valid] using hv)
      obtain ⟨r, hr⟩ := drop_state hs
      rw [cancel_eq h hu] at hr
      split_ifs at hr <;> cases hr
      · rcases update_some hb with hold | ⟨rfl, rfl⟩
        · exact .inl hold
        -- `cancel` clears the callback, `refresh` and `reset` keep it
        · exact .inr (.inr ⟨rfl, u, hu, .inr rfl⟩)
      · exact .inl hb
    | refresh a now =>
      obtain ⟨u, hu⟩ := Option.isSome_iff_exists.mp (by simpa [valid] using hv)
      obtain ⟨r, hr⟩ := drop_state hs
      rw [refresh_eq h hu] at hr
      split_ifs at hr <;> cases hr
      · rcases update_some hb with hold | ⟨rfl, rfl⟩
        · exact .inl hold
        · exact .inr (.inr ⟨rfl, u, hu, .inl rfl⟩)
      · exact .inl hb
    | reset a ms fromNow now =>
      obtain ⟨u, hu⟩ := Option.isSome_iff_exists.mp (by simpa [valid] using hv)
      obtain ⟨r, hr⟩ := drop_state hs
      rw [reset_eq h hu] at hr
      split at hr
      · cases hr
        exact .inl hb
      · split at hr <;> cases hr
        · rw [notifyFront_heap, rearm_heap] at hb
          rcases update_some hb with hold | ⟨rfl, rfl⟩
          · exact .inl hold
          · exact .inr (.inr ⟨rfl, u, hu, .inl rfl⟩)
        · exact .inl hb
    | getNextTimer now =>
      obtain ⟨v, hv⟩ := getNextTimer_state h now
      obtain ⟨r, hr⟩ := drop_state hs
      rw [hv] at hr
      cases hr
      exact .inl hb
    | listExpiredCb now probe => exact absurd rfl (hop now probe)

theorem resumes_lift (cb : Option (Callback β ω)) : resumes (cb.map liftCallback) = none := by
  cases cb with
  | none => rfl
  | some cb => cases cb <;> rfl

theorem resumes_newCallback (op : Op β ω) : resumes (newCallback (liftOp op)) = none := by
  cases op with
  | addTimer a ms cb recurring now => exact resumes_lift cb
  | _ => rfl

/-! ## The invariant -/

/-- A fiber is on its way back at the time `t`, if that is not before the timer's. -/
def DueBy (w : World β ω) (n t : Nat) : Prop :=
  ∃ call, w.calls[n]? = some call ∧ call.time.toNat + call.request.ms.toNat ≤ t

/-- The timer of a call keeps its time until it expires, and its callback is behind that time. -/
structure Inv (w : World β ω) : Prop where
  manager : TimerManager.Inv w.manager
  armed : ∀ b t n, w.manager.heap b = some t → resumes t.cb = some n →
    (∃ call ∈ w.calls, call.timer = b) ∧ t.recurring = false ∧ DueBy w n t.next.toNat
  scheduled : ∀ cb n, cb ∈ w.scheduled → resumes cb = some n → DueBy w n w.clock.toNat
  woken : ∀ n t, (n, t) ∈ w.woken → DueBy w n t.toNat

section

variable {w w' : World β ω} {n t : Nat}

theorem DueBy.mono {t' : Nat} (h : DueBy w n t) (hle : t ≤ t') : DueBy w n t' := by
  obtain ⟨call, hcall, hdue⟩ := h
  exact ⟨call, hcall, hdue.trans hle⟩

/-- The calls of before are still there. -/
theorem DueBy.append (calls : List Call) (h : DueBy w n t) (hcalls : w'.calls = w.calls ++ calls) :
    DueBy w' n t := by
  obtain ⟨call, hcall, hdue⟩ := h
  have hlt := (List.getElem?_eq_some_iff.mp hcall).1
  exact ⟨call, by rw [hcalls, List.getElem?_append_left hlt, hcall], hdue⟩

theorem DueBy.of_calls (h : DueBy w n t) (hcalls : w'.calls = w.calls) : DueBy w' n t :=
  h.append [] (by rw [hcalls, List.append_nil])

theorem init_inv : Inv (World.init : World β ω) where
  manager := TimerManager.init_inv
  armed _ _ _ hb := by cases hb
  scheduled _ _ hcb := by cases hcb
  woken _ _ h := by cases h

theorem call_inv (h : Inv w) {request : Request} {time now : UInt64} {a : Nat}
    {m : TimerManager (Fn β) ω} (hclock : w.clock ≤ time) (htime : time ≤ now)
    (ha : w.manager.heap a = none) (hfits : now.toNat + request.ms.toNat < 2 ^ 64)
    (hexec : request.exec w.calls.length a now w.manager = .ok a m) :
    Inv { w with manager := m, clock := now, calls := w.calls ++ [⟨request, time, a⟩] } := by
  rw [Request.exec_eq, addTimer_eq h.manager ha] at hexec
  cases hexec
  constructor
  case manager => exact notifyFront_inv (rearm_inv h.manager a _) a
  case armed =>
    intro b t n hb hn
    dsimp only at hb
    rw [notifyFront_heap, rearm_heap] at hb
    rcases update_some hb with hold | ⟨rfl, rfl⟩
    · obtain ⟨⟨call, hcall, htimer⟩, hrec, hdue⟩ := h.armed b t n hold hn
      exact ⟨⟨call, List.mem_append_left _ hcall, htimer⟩, hrec, hdue.append _ rfl⟩
    · -- the timer of this call
      cases hn
      refine ⟨⟨_, List.mem_append_right _ (List.mem_singleton_self _), rfl⟩, rfl,
        ⟨_, List.getElem?_concat_length, ?_⟩⟩
      have hle : time.toNat ≤ now.toNat := UInt64.le_iff_toNat_le.mp htime
      show time.toNat + request.ms.toNat ≤ (now + request.ms).toNat
      rw [toNat_add_of_lt hfits]
      omega
  case scheduled =>
    intro cb n hcb hn
    have hle := UInt64.le_iff_toNat_le.mp (UInt64.le_trans hclock htime)
    exact ((h.scheduled cb n hcb hn).append _ rfl).mono hle
  case woken => exact fun n t hmem => (h.woken n t hmem).append _ rfl

theorem client_inv (h : Inv w) {op : Op β ω} {m : TimerManager (Fn β) ω}
    (hstep : TimerManager.step w.manager (liftOp op) = some m)
    (hop : ∀ now probe, op ≠ .listExpiredCb now probe)
    (hown : ∀ call ∈ w.calls, handle op ≠ some call.timer)
    (hclock : ∀ now, op.reading = some now → w.clock ≤ now) :
    Inv { w with manager := m, clock := op.reading.getD w.clock } := by
  constructor
  case manager => exact (step_some h.manager hstep).1
  case armed =>
    intro b t n hb hn
    have hlift : ∀ now probe, liftOp op ≠ .listExpiredCb now probe := by
      intro now probe heq
      cases op <;> cases heq
      exact hop now probe rfl
    rcases heap_of_step h.manager hstep hlift hb with hold | hnew | ⟨hhandle, u, hu, hcb⟩
    · obtain ⟨htimer, hrec, hdue⟩ := h.armed b t n hold hn
      exact ⟨htimer, hrec, hdue.of_calls rfl⟩
    · rw [hnew, resumes_newCallback] at hn
      cases hn
    · -- no client has a handle of a sleeper's timer
      rcases hcb with hcb | hcb
      · rw [hcb] at hn
        obtain ⟨⟨call, hcall, rfl⟩, -, -⟩ := h.armed b u n hu hn
        refine absurd ?_ (hown call hcall)
        cases op <;> exact hhandle
      · rw [hcb] at hn
        cases hn
  case scheduled =>
    intro cb n hcb hn
    refine ((h.scheduled cb n hcb hn).of_calls rfl).mono ?_
    cases hreading : op.reading with
    | none => exact Nat.le_refl _
    | some now => exact UInt64.le_iff_toNat_le.mp (hclock now hreading)
  case woken => exact fun n t hmem => (h.woken n t hmem).of_calls rfl

theorem expire_inv (h : Inv w) {now : UInt64} {probe : Nat}
    {cbs : List (Option (Callback (Fn β) ω))} {m : TimerManager (Fn β) ω}
    (hclock : w.clock ≤ now) (hprobe : w.manager.heap probe = none)
    (hexpired : listExpiredCb now probe w.manager = .ok cbs m) :
    Inv { w with manager := m, clock := now, scheduled := w.scheduled ++ cbs } := by
  have hle := UInt64.le_iff_toNat_le.mp hclock
  obtain ⟨m₁, hrun, hinv, hheap, -⟩ := expireAll_spec h.manager now
    (expired_nodup h.manager now probe) fun a ha => w.manager.expired_subset now probe ha
  rw [listExpiredCb_apply, hrun] at hexpired
  cases hexpired
  constructor
  case manager => exact hinv
  case armed =>
    intro b t n hb hn
    dsimp only at hb
    rw [hheap, Option.map_eq_some_iff] at hb
    obtain ⟨u, hu, rfl⟩ := hb
    -- a timer of a call is not a recurring one
    have hcb : resumes u.cb = some n := by
      split at hn
      · rwa [afterExpiry_cb] at hn
      · exact hn
    obtain ⟨htimer, hrec, hdue⟩ := h.armed b u n hu hcb
    have hsame : afterExpiry now u = u := by
      rw [afterExpiry, hrec]
      rfl
    rw [hsame, ite_self]
    exact ⟨htimer, hrec, hdue.of_calls rfl⟩
  case scheduled =>
    intro cb n hcb hn
    rcases List.mem_append.mp hcb with hold | hnew
    · exact ((h.scheduled cb n hold hn).of_calls rfl).mono hle
    · -- the timer has expired, so its time is past
      obtain ⟨a, ha, rfl⟩ := List.mem_map.mp hnew
      have hmem := w.manager.expired_subset now probe ha
      obtain ⟨u, hu⟩ := Option.ne_none_iff_exists'.mp (h.manager.alive a hmem)
      rw [hu, Option.bind_some] at hn
      obtain ⟨-, -, hdue⟩ := h.armed a u n hu hn
      have hpast := (mem_expired h.manager hprobe hmem hu).mp ha
      refine (hdue.of_calls rfl).mono ?_
      show u.next.toNat ≤ now.toNat
      omega
  case woken => exact fun n t hmem => (h.woken n t hmem).of_calls rfl

theorem run_inv (h : Inv w) {now : UInt64} {i : Nat} {cb : Option (Callback (Fn β) ω)}
    (hclock : w.clock ≤ now) (hcb : w.scheduled[i]? = some cb) :
    Inv { w with
      clock := now
      scheduled := w.scheduled.eraseIdx i
      woken := w.woken ++ (resumes cb).toList.map (·, now) } := by
  have hle := UInt64.le_iff_toNat_le.mp hclock
  constructor
  case manager => exact h.manager
  case armed =>
    intro b t n hb hn
    obtain ⟨htimer, hrec, hdue⟩ := h.armed b t n hb hn
    exact ⟨htimer, hrec, hdue.of_calls rfl⟩
  case scheduled =>
    intro cb' n hcb' hn
    exact ((h.scheduled cb' n (List.mem_of_mem_eraseIdx hcb') hn).of_calls rfl).mono hle
  case woken =>
    intro n t hmem
    rcases List.mem_append.mp hmem with hold | hnew
    · exact (h.woken n t hold).of_calls rfl
    · obtain ⟨n', hn', heq⟩ := List.mem_map.mp hnew
      cases heq
      have hdue := h.scheduled cb n (List.mem_of_getElem? hcb) (Option.mem_toList.mp hn')
      exact (hdue.of_calls rfl).mono hle

theorem step_inv (h : Inv w) (hstep : Step w w') : Inv w' := by
  cases hstep with
  | call hclock htime ha hfits hexec => exact call_inv h hclock htime ha hfits hexec
  | client hstep hop hown hclock => exact client_inv h hstep hop hown hclock
  | expire hclock hprobe hexpired => exact expire_inv h hclock hprobe hexpired
  | run hclock hcb => exact run_inv h hclock hcb

theorem Reachable.inv (h : Reachable w) : Inv w := by
  induction h with
  | init => exact init_inv
  | step _ hstep ih => exact step_inv ih hstep

end

/-! ## Early or not -/

/-- The manager with the timer of the first call, made at time 0. -/
def firstTimer (β ω : Type) (request : Request) : TimerManager (Fn β) ω :=
  ((TimerManager.init.rearm 0
    (Timer.new request.ms (some (.fn (.resume 0))) false 0)).notifyFront 0)

theorem firstTimer_heap_zero (request : Request) : (firstTimer β ω request).heap 0 =
    some (Timer.new request.ms (some (.fn (.resume 0))) false 0) := by
  rw [firstTimer, notifyFront_heap, rearm_heap, Function.update_self]

theorem firstTimer_heap_one (request : Request) : (firstTimer β ω request).heap 1 = none := by
  rw [firstTimer, notifyFront_heap, rearm_heap, Function.update_of_ne Nat.one_ne_zero]
  rfl

theorem firstTimer_timers (request : Request) : (firstTimer β ω request).timers = [0] := by
  rw [firstTimer, notifyFront_timers]
  rfl

theorem firstTimer_inv (request : Request) : TimerManager.Inv (firstTimer β ω request) :=
  notifyFront_inv (rearm_inv TimerManager.init_inv 0 _) 0

/-- At its time the timer expires, if it lies below the probe. -/
theorem firstTimer_expired (request : Request) : ∃ m,
    listExpiredCb request.ms 1 (firstTimer β ω request) = .ok [some (.fn (.resume 0))] m := by
  have hinv : TimerManager.Inv (firstTimer β ω request) := firstTimer_inv request
  have hheap := firstTimer_heap_zero (β := β) (ω := ω) request
  have hprobe := firstTimer_heap_one (β := β) (ω := ω) request
  have hmem : 0 ∈ (firstTimer β ω request).expired request.ms 1 := by
    rw [mem_expired hinv hprobe (by rw [firstTimer_timers]; exact List.mem_singleton_self 0) hheap]
    refine .inr ⟨?_, Nat.one_pos⟩
    rw [Timer.new, UInt64.zero_add]
  have hexpired : (firstTimer β ω request).expired request.ms 1 = [0] := by
    have hsub := (List.take_sublist _ _ : ((firstTimer β ω request).expired request.ms 1).Sublist _)
    rw [firstTimer_timers] at hsub
    exact hsub.eq_of_length_le (List.length_pos_of_mem hmem)
  obtain ⟨m, hrun, -⟩ := expireAll_spec hinv request.ms (List.nodup_singleton 0)
    fun a ha => by rwa [firstTimer_timers]
  refine ⟨m, ?_⟩
  rw [listExpiredCb_apply, hexpired, hrun, List.map_singleton, hheap]
  rfl

/-- The first call sleeps until its timer is due, and no longer. -/
theorem reachable_woken (β ω : Type) (request : Request) : ∃ w : World β ω, Reachable w ∧
    w.calls = [⟨request, 0, 0⟩] ∧ w.woken = [(0, request.ms)] := by
  obtain ⟨m, hexpired⟩ := firstTimer_expired (β := β) (ω := ω) request
  have hfits : (0 : UInt64).toNat + request.ms.toNat < 2 ^ 64 := by
    rw [UInt64.toNat_zero, Nat.zero_add]
    exact request.ms.toNat_lt
  have hexec : request.exec 0 0 0 (TimerManager.init : TimerManager (Fn β) ω) =
      .ok 0 (firstTimer β ω request) := by
    rw [Request.exec_eq, addTimer_eq TimerManager.init_inv rfl]
    rfl
  have hpos : (0 : UInt64) ≤ request.ms := UInt64.le_iff_toNat_le.mpr (Nat.zero_le _)
  have hcalled := Reachable.step .init
    (.call (w := World.init) (UInt64.le_refl 0) (UInt64.le_refl 0) rfl hfits hexec)
  have hscheduled := hcalled.step (.expire hpos (firstTimer_heap_one request) hexpired)
  exact ⟨_, hscheduled.step (.run (i := 0) (UInt64.le_refl _) rfl), rfl, rfl⟩

/-- What the timer is set to is what was asked for, or more. -/
theorem sleepsEnough_iff_le (β ω : Type) (request : Request) :
    SleepsEnough β ω request ↔ request.micros ≤ request.ms.toNat * 1000 := by
  constructor
  · intro h
    -- a sleeper alone is woken when its timer is due
    obtain ⟨w, hw, hcalls, hwoken⟩ := reachable_woken β ω request
    have hle := h w hw 0 ⟨request, 0, 0⟩ request.ms (by rw [hcalls]; rfl) rfl
      (by rw [hwoken]; exact List.mem_singleton_self _)
    simpa using hle
  · -- no fiber is woken before its timer is due
    rintro hms w hw n call t hcall rfl hmem
    obtain ⟨call', hcall', hdue⟩ := hw.inv.woken n t hmem
    rw [hcall] at hcall'
    cases hcall'
    omega

/-- The request survives the arithmetic of `unsigned int`, or the division to milliseconds. -/
def Exact : Request → Prop
  | .sleep seconds => seconds.toNat * 1000 < 2 ^ 32
  | .usleep usec => usec.toNat % 1000 = 0

theorem exact_iff (request : Request) :
    request.micros ≤ request.ms.toNat * 1000 ↔ Exact request := by
  cases request with
  | sleep seconds =>
    have hms : (Request.sleep seconds).ms.toNat = seconds.toNat * 1000 % 2 ^ 32 := by
      rw [Request.ms, UInt32.toNat_toUInt64, UInt32.toNat_mul]
      rfl
    rw [hms, Request.micros, Exact]
    omega
  | usleep usec =>
    have hms : (Request.usleep usec).ms.toNat = usec.toNat / 1000 := by
      rw [Request.ms, UInt32.toNat_toUInt64, UInt32.toNat_div]
      rfl
    rw [hms, Request.micros, Exact]
    omega

/-- **A sleep is long enough just when its milliseconds are those asked for**: up to 4294967
seconds, or whole milliseconds. -/
theorem sleepsEnough_iff (β ω : Type) (request : Request) :
    SleepsEnough β ω request ↔ Exact request :=
  (sleepsEnough_iff_le β ω request).trans (exact_iff request)

/-- Fifty days become 704 milliseconds, and 999 microseconds none. -/
theorem not_sleepsEnough_long : ¬ SleepsEnough Unit Unit (.sleep 4294968) ∧
    ¬ SleepsEnough Unit Unit (.usleep 999) := by
  rw [sleepsEnough_iff_le, sleepsEnough_iff_le]
  decide

end Luwu.Sleep
