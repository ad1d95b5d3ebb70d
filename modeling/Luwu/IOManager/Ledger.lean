import Luwu.IOManager.Trigger

/-!
# Registrations and their ends

A registration begins with an `addEvent` that succeeds and ends when its event is no longer armed.
The ledger numbers the registrations and records how each of them has ended.  It is kept beside the
state, and looks only at the bits of `FdContext::event` before and after a step.
-/

namespace Luwu

/-- The context holds a scheduler and exactly one of a callback and a fiber. -/
def EventContext.Filled {κ φ : Type} (ctx : EventContext κ φ) : Prop :=
  ctx.scheduler.isSome ∧ (ctx.cb.isSome ∧ ctx.fiber = none ∨ ctx.cb = none ∧ ctx.fiber.isSome)

namespace IOManager

open Lib

variable {n : Nat} {κ φ : Type}

/-- **What a bit of the mask stands for**, after every interleaving of steps: the event's context is
filled in, and empty otherwise; the kernel watches for just the events of the mask; and the counter
counts the bits. -/
theorem bits_coherent (ops : List (Op n κ φ)) (m : IOManager n κ φ)
    (h : runFrom step init ops = some m) :
    (∀ fd e, ((m.contexts fd).event e = true ↔ ((m.contexts fd).context e).Filled) ∧
      ((m.contexts fd).event e = false → (m.contexts fd).context e = {})) ∧
    (∀ fd, m.interest fd =
      if (m.contexts fd).event.any then some (m.contexts fd).event else none) ∧
    m.pending = ∑ fd, (m.contexts fd).event.count := by
  have hinv := runFrom_invariant step_inv init_inv h
  refine ⟨fun fd e => ⟨⟨?_, ?_⟩, (hinv.wf fd).idle e⟩, hinv.interest, hinv.pending⟩
  · intro he
    obtain ⟨⟨s, hs⟩, hone⟩ := (hinv.wf fd).armed e he
    exact ⟨by rw [hs]; rfl, hone⟩
  · intro hfilled
    cases he : (m.contexts fd).event e with
    | true => rfl
    | false =>
      have hempty := (hinv.wf fd).idle e he
      rw [hempty] at hfilled
      exact absurd hfilled.1 Bool.false_ne_true

/-- Two events on one descriptor, one of them removed again. -/
theorem bits_coherent_two_events :
    ∃ m, runFrom step init (twoEvents ++ [.delEvent 0 .write true]) = some m ∧
      m.pending = 1 ∧ ((m.contexts 0).context .read).Filled := by
  refine ⟨_, rfl, rfl, ?_⟩
  exact ((bits_coherent (twoEvents ++ [.delEvent 0 .write true]) _ rfl).1 0 .read).1.mp rfl

/-! ## The ledger -/

/-- How a registration ends. -/
inductive Retirement where
  | delEvent
  | cancelEvent
  | cancelAll
  /-- An entry that `epoll_wait` has reported. -/
  | epoll
deriving DecidableEq, Repr

structure Ledger (n : Nat) (κ φ : Type) where
  /-- What each registration is to hand to which scheduler, in the order of their numbers. -/
  made : List (Nat × Task κ φ) := []
  /-- The number of the registration that arms an event. -/
  armed : Fin n → Event → Option Nat := fun _ _ => none
  /-- The registrations that have ended. -/
  retired : List (Nat × Retirement) := []

namespace Ledger

/-- The registrations that were handed to a scheduler, in that order. -/
def handed (l : Ledger n κ φ) : List Nat :=
  (l.retired.filter fun r => r.2 ≠ .delEvent).map Prod.fst

def setArmed (l : Ledger n κ φ) (fd : Fin n) (e : Event) (i : Option Nat) : Ledger n κ φ :=
  { l with armed := Function.update l.armed fd (Function.update (l.armed fd) e i) }

def register (l : Ledger n κ φ) (fd : Fin n) (e : Event) (t : Nat × Task κ φ) : Ledger n κ φ :=
  { l.setArmed fd e (some l.made.length) with made := l.made ++ [t] }

/-- The end of the registration of an event. -/
def retire (l : Ledger n κ φ) (fd : Fin n) (e : Event) (r : Retirement) : Ledger n κ φ :=
  match l.armed fd e with
  | none => l
  | some i => { l.setArmed fd e none with retired := l.retired ++ [(i, r)] }

/-- The end of the registrations of the events in `s`, `READ` first. -/
def retireMask (l : Ledger n κ φ) (fd : Fin n) (s : Mask) (r : Retirement) : Ledger n κ φ :=
  let l := if s .read then l.retire fd .read r else l
  if s .write then l.retire fd .write r else l

end Ledger

/-- The events of `fd` that are armed in `m` and not in `m'`. -/
def gone (m m' : IOManager n κ φ) (fd : Fin n) : Mask := fun e =>
  (m.contexts fd).event e && !(m'.contexts fd).event e

/-- The descriptor whose registrations a step may end, and how it does. -/
def retires (m : IOManager n κ φ) : Op n κ φ → Option (Fin n × Retirement)
  | .addEvent _ _ _ _ _ _ => none
  | .delEvent fd _ _ => some (fd, .delEvent)
  | .cancelEvent fd _ _ => some (fd, .cancelEvent)
  | .cancelAll fd _ => some (fd, .cancelAll)
  | .epollWait _ _ => none
  | .handleNext w _ => (m.events w).head?.map fun ev => (ev.fd, .epoll)

/-- The entries for the end of every registration that arms an event of `fd`, `READ` first. -/
def Ledger.endings (l : Ledger n κ φ) (fd : Fin n) (r : Retirement) : List (Nat × Retirement) :=
  [Event.read, Event.write].filterMap fun e => (l.armed fd e).map fun i => (i, r)

/-- The ledger after a step from `m` to `m'`. -/
def Ledger.next (m m' : IOManager n κ φ) (op : Op n κ φ) (l : Ledger n κ φ) : Ledger n κ φ :=
  match op with
  | .addEvent fd e cb sched self _ =>
    if (m.contexts fd).event e = false ∧ (m'.contexts fd).event e = true then
      l.register fd e (sched, (EventContext.fill cb sched self).task)
    else l
  | op =>
    match m.retires op with
    | none => l
    | some (fd, r) => l.retireMask fd (gone m m' fd) r

/-- The steps with the ledger kept beside the state. -/
abbrev ledgerStep : IOManager n κ φ × Ledger n κ φ → Op n κ φ →
    Option (IOManager n κ φ × Ledger n κ φ) :=
  recordStep step fun m m' op l => l.next m m' op

/-! ## What a step does to the contexts -/

/-- The three things a step can do: nothing, register one event, or end registrations of one
descriptor, which hands them out unless it is `delEvent`. -/
inductive Effect (m m' : IOManager n κ φ) (op : Op n κ φ) : Prop where
  | keeps (hc : m'.contexts = m.contexts) (hs : m'.scheduled = m.scheduled)
  | registers {fd : Fin n} {e : Event} {cb : Option κ} {sched : Nat} {self : φ} {ok : Bool}
      (hop : op = .addEvent fd e cb sched self ok) (he : (m.contexts fd).event e = false)
      (hc : m'.contexts = Function.update m.contexts fd
        { context := Function.update (m.contexts fd).context e (.fill cb sched self)
          event := Function.update (m.contexts fd).event e true })
      (hs : m'.scheduled = m.scheduled)
  | retires {fd : Fin n} {r : Retirement} {s : Mask} (hop : m.retires op = some (fd, r))
      (harmed : ∀ e, s e = true → (m.contexts fd).event e = true)
      (hc : m'.contexts = Function.update m.contexts fd ((m.contexts fd).retire s))
      (hs : m'.scheduled = m.scheduled ++
        if r = .delEvent then [] else tasksOf (m.contexts fd) s)

theorem tasksOf_only (c : FdContext κ φ) (e : Event) :
    tasksOf c (Mask.only e true) = c.tasks e := by
  cases e <;> simp [tasksOf, Mask.only]

theorem only_armed {c : FdContext κ φ} {e : Event} (he : c.event e = true) (e' : Event)
    (h : Mask.only e true e' = true) : c.event e' = true := by
  simp only [Mask.only, Bool.and_true, decide_eq_true_eq] at h
  rw [h]
  exact he

theorem exec_effect {m m' : IOManager n κ φ} (h : Inv m) {op : Op n κ φ}
    (hrun : exec op m = .ok () m') : Effect m m' op := by
  cases op with
  | addEvent fd e cb sched self ok =>
    simp only [exec, drop_apply, addEvent_eq h] at hrun
    split at hrun
    · cases hrun
    · next he =>
      split at hrun
      · cases hrun
        exact .registers rfl (Bool.not_eq_true _ ▸ he) rfl (List.append_nil _)
      · cases hrun
        exact .keeps rfl rfl
  | delEvent fd e ok =>
    simp only [exec, drop_apply, delEvent_eq h] at hrun
    split at hrun
    · next he =>
      cases hrun
      exact .retires (r := .delEvent) rfl (only_armed he.1) rfl rfl
    · cases hrun
      exact .keeps rfl rfl
  | cancelEvent fd e ok =>
    simp only [exec, drop_apply, cancelEvent_eq h] at hrun
    split at hrun
    · next he =>
      cases hrun
      refine .retires (r := .cancelEvent) rfl (only_armed he.1) rfl ?_
      rw [if_neg (by decide), tasksOf_only]
      rfl
    · cases hrun
      exact .keeps rfl rfl
  | cancelAll fd ok =>
    simp only [exec, drop_apply, cancelAll_eq h] at hrun
    split at hrun
    · cases hrun
      exact .retires (r := .cancelAll) rfl (fun e he => he) rfl rfl
    · cases hrun
      exact .keeps rfl rfl
  | epollWait w evs =>
    cases hrun
    exact .keeps rfl rfl
  | handleNext w ok =>
    simp only [exec, Prog.bind_apply, Prog.gets_apply, Outcome.bind_ok] at hrun
    cases hevs : m.events w with
    | nil =>
      rw [hevs] at hrun
      cases hrun
      exact .keeps rfl rfl
    | cons ev rest =>
      have hinv : Inv { m with events := Function.update m.events w rest } :=
        ⟨h.wf, h.interest, h.pending⟩
      rw [hevs] at hrun
      simp only [Prog.bind_apply, Prog.modify_apply, Outcome.bind_ok, handleEvent_eq hinv] at hrun
      split at hrun
      · split at hrun
        · next hin =>
          cases hrun
          refine .retires (r := .epoll) (by rw [IOManager.retires, hevs]; rfl) ?_ rfl rfl
          intro e he
          -- what is reported is armed, and so is what an error stands for
          rw [realEvents, Bool.or_eq_true, Bool.and_eq_true] at he
          rcases he with he | he
          · exact Mask.within_iff.mp hin e he
          · exact he.2
        · cases hrun
      · cases hrun
        exact .keeps rfl rfl

theorem step_effect {m m' : IOManager n κ φ} (h : Inv m) {op : Op n κ φ}
    (hs : step m op = some m') : Effect m m' op := by
  unfold step at hs
  split at hs
  · rcases exec_cases h op with ⟨-, hf | ⟨m₁, hrun, -⟩⟩ | ⟨-, hf⟩
    · rw [hf] at hs
      cases hs
    · rw [hrun] at hs
      cases hs
      exact exec_effect h hrun
    · rw [hf] at hs
      cases hs
  · cases hs

/-! ## The ledger and the state -/

namespace Ledger

/-- The ledger `l` fits the contexts and what has been handed out. -/
structure Tracks (contexts : Fin n → FdContext κ φ) (scheduled : List (Nat × Task κ φ))
    (l : Ledger n κ φ) : Prop where
  armed : ∀ fd e, (l.armed fd e).isSome = (contexts fd).event e
  /-- An armed event is the one of its registration. -/
  tasks : ∀ fd e i, l.armed fd e = some i → (contexts fd).tasks e = (l.made[i]?).toList
  /-- Every registration either arms one event or has ended once. -/
  lt : ∀ fd e i, l.armed fd e = some i → i < l.made.length
  inj : ∀ fd e fd' e' i, l.armed fd e = some i → l.armed fd' e' = some i → fd = fd' ∧ e = e'
  fresh : ∀ fd e i, l.armed fd e = some i → i ∉ l.retired.map Prod.fst
  retired_lt : ∀ i ∈ l.retired.map Prod.fst, i < l.made.length
  retired_nodup : (l.retired.map Prod.fst).Nodup
  complete : ∀ i < l.made.length, (∃ fd e, l.armed fd e = some i) ∨ i ∈ l.retired.map Prod.fst
  scheduled : scheduled.map some = l.handed.map (l.made[·]?)

theorem setArmed_armed (l : Ledger n κ φ) (fd fd' : Fin n) (e e' : Event) (i : Option Nat) :
    (l.setArmed fd e i).armed fd' e' = if fd' = fd ∧ e' = e then i else l.armed fd' e' := by
  by_cases hfd : fd' = fd
  · subst hfd
    by_cases he : e' = e
    · subst he
      simp [setArmed]
    · simp [setArmed, he]
  · simp [setArmed, hfd]

theorem handed_append (l : Ledger n κ φ) (i : Nat) (r : Retirement) :
    ({ l with retired := l.retired ++ [(i, r)] } : Ledger n κ φ).handed =
      l.handed ++ if r = .delEvent then [] else [i] := by
  by_cases hr : r = .delEvent
  · simp [handed, hr]
  · simp [handed, hr]

variable {contexts : Fin n → FdContext κ φ} {scheduled : List (Nat × Task κ φ)} {l : Ledger n κ φ}

theorem init_tracks :
    Tracks (fun _ => {}) [] ({} : Ledger n κ φ) where
  armed _ _ := rfl
  tasks _ _ _ h := by cases h
  lt _ _ _ h := by cases h
  inj _ _ _ _ _ h := by cases h
  fresh _ _ _ h := by cases h
  retired_lt _ h := by cases h
  retired_nodup := .nil
  complete _ h := absurd h (Nat.not_lt_zero _)
  scheduled := rfl

theorem Tracks.register (h : Tracks contexts scheduled l) {fd : Fin n} {e : Event}
    (he : (contexts fd).event e = false) (cb : Option κ) (sched : Nat) (self : φ) :
    Tracks
      (Function.update contexts fd
        { context := Function.update (contexts fd).context e (.fill cb sched self)
          event := Function.update (contexts fd).event e true })
      scheduled (l.register fd e (sched, (EventContext.fill cb sched self).task)) := by
  have hnew (fd' : Fin n) (e' : Event) :
      (l.register fd e (sched, (EventContext.fill cb sched self).task)).armed fd' e' =
        if fd' = fd ∧ e' = e then some l.made.length else l.armed fd' e' :=
    l.setArmed_armed fd fd' e e' _
  have hlen : (l.register fd e (sched, (EventContext.fill cb sched self).task)).made.length =
      l.made.length + 1 := List.length_append
  have hold (i : Nat) (hi : i < l.made.length) :
      (l.made ++ [(sched, (EventContext.fill cb sched self).task)])[i]? = l.made[i]? :=
    List.getElem?_append_left hi
  constructor
  case armed =>
    intro fd' e'
    rw [hnew]
    by_cases hfd : fd' = fd
    · subst hfd
      by_cases hee : e' = e
      · subst hee
        simp
      · simpa [hee] using h.armed fd' e'
    · simpa [hfd] using h.armed fd' e'
  case tasks =>
    intro fd' e' i hi
    rw [hnew] at hi
    by_cases hsame : fd' = fd ∧ e' = e
    · obtain ⟨rfl, rfl⟩ := hsame
      rw [if_pos ⟨rfl, rfl⟩] at hi
      cases hi
      cases cb <;> simp [FdContext.tasks, EventContext.fill, Ledger.register]
    · rw [if_neg hsame] at hi
      have htasks := h.tasks fd' e' i hi
      have hsame' : (Function.update contexts fd
          { context := Function.update (contexts fd).context e (.fill cb sched self)
            event := Function.update (contexts fd).event e true } fd').tasks e' =
          (contexts fd').tasks e' := by
        by_cases hfd : fd' = fd
        · subst hfd
          have hee : e' ≠ e := fun hee => hsame ⟨rfl, hee⟩
          simp [FdContext.tasks, hee]
        · simp [hfd]
      rw [hsame', htasks]
      exact congrArg Option.toList (hold i (h.lt fd' e' i hi)).symm
  case lt =>
    intro fd' e' i hi
    rw [hnew] at hi
    split at hi
    · cases hi
      omega
    · have := h.lt fd' e' i hi
      omega
  case inj =>
    intro fd₁ e₁ fd₂ e₂ i h₁ h₂
    rw [hnew] at h₁ h₂
    split at h₁
    · next hs₁ =>
      cases h₁
      split at h₂
      · next hs₂ => exact ⟨hs₁.1.trans hs₂.1.symm, hs₁.2.trans hs₂.2.symm⟩
      · exact absurd (h.lt fd₂ e₂ _ h₂) (Nat.lt_irrefl _)
    · split at h₂
      · cases h₂
        exact absurd (h.lt fd₁ e₁ _ h₁) (Nat.lt_irrefl _)
      · exact h.inj fd₁ e₁ fd₂ e₂ i h₁ h₂
  case fresh =>
    intro fd' e' i hi hmem
    rw [hnew] at hi
    split at hi
    · cases hi
      exact absurd (h.retired_lt _ hmem) (Nat.lt_irrefl _)
    · exact h.fresh fd' e' i hi hmem
  case retired_lt =>
    intro i hi
    have hlt := h.retired_lt i hi
    rw [hlen]
    exact Nat.lt_succ_of_lt hlt
  case retired_nodup => exact h.retired_nodup
  case complete =>
    intro i hi
    rw [hlen] at hi
    by_cases hlast : i = l.made.length
    · subst hlast
      exact .inl ⟨fd, e, by rw [hnew, if_pos ⟨rfl, rfl⟩]⟩
    · rcases h.complete i (by omega) with ⟨fd', e', harmed⟩ | hmem
      · refine .inl ⟨fd', e', ?_⟩
        rw [hnew, if_neg, harmed]
        rintro ⟨rfl, rfl⟩
        -- the event was not armed
        have hidle := h.armed fd' e'
        rw [harmed, he] at hidle
        exact absurd hidle.symm Bool.false_ne_true
      · exact .inr hmem
  case scheduled =>
    rw [h.scheduled]
    apply List.map_congr_left
    intro i hi
    have hmem : i ∈ l.retired.map Prod.fst := by
      obtain ⟨r, hr, rfl⟩ := List.mem_map.mp hi
      exact List.mem_map_of_mem (List.mem_of_mem_filter hr)
    exact (hold i (h.retired_lt i hmem)).symm

/-- The end of a registration; it is handed out unless it is `delEvent` that ends it. -/
theorem Tracks.retire (h : Tracks contexts scheduled l) {fd : Fin n} {e : Event}
    (he : (contexts fd).event e = true) (r : Retirement) :
    Tracks (Function.update contexts fd ((contexts fd).retire (Mask.only e true)))
      (scheduled ++ if r = .delEvent then [] else (contexts fd).tasks e) (l.retire fd e r) := by
  obtain ⟨i, hi⟩ : ∃ i, l.armed fd e = some i := by
    rw [← Option.isSome_iff_exists, h.armed, he]
  have hretire : l.retire fd e r =
      { l.setArmed fd e none with retired := l.retired ++ [(i, r)] } := by
    rw [Ledger.retire, hi]
  rw [hretire]
  -- only this event of this descriptor is no longer armed
  have hnew (fd' : Fin n) (e' : Event) :
      ({ l.setArmed fd e none with retired := l.retired ++ [(i, r)] } : Ledger n κ φ).armed fd' e' =
        if fd' = fd ∧ e' = e then none else l.armed fd' e' := l.setArmed_armed fd fd' e e' none
  have hretired : (l.retired ++ [(i, r)]).map Prod.fst = l.retired.map Prod.fst ++ [i] := by
    rw [List.map_append]
    rfl
  constructor
  case armed =>
    intro fd' e'
    rw [hnew]
    by_cases hfd : fd' = fd
    · subst hfd
      by_cases hee : e' = e
      · subst hee
        simp [FdContext.retire, Mask.only]
      · simpa [hee, FdContext.retire, Mask.only] using h.armed fd' e'
    · simpa [hfd] using h.armed fd' e'
  case tasks =>
    intro fd' e' j hj
    rw [hnew] at hj
    split at hj
    · cases hj
    · next hsame =>
      -- what the other events hold for their callers is as before
      have hkeep : (Function.update contexts fd ((contexts fd).retire (Mask.only e true))
          fd').tasks e' = (contexts fd').tasks e' := by
        by_cases hfd : fd' = fd
        · subst hfd
          have hee : e' ≠ e := fun hee => hsame ⟨rfl, hee⟩
          simp [FdContext.tasks, FdContext.retire, Mask.only, hee]
        · simp [hfd]
      rw [hkeep]
      exact h.tasks fd' e' j hj
  case lt =>
    intro fd' e' j hj
    rw [hnew] at hj
    split at hj
    · cases hj
    · exact h.lt fd' e' j hj
  case inj =>
    intro fd₁ e₁ fd₂ e₂ j h₁ h₂
    rw [hnew] at h₁ h₂
    split at h₁
    · cases h₁
    · split at h₂
      · cases h₂
      · exact h.inj fd₁ e₁ fd₂ e₂ j h₁ h₂
  case fresh =>
    intro fd' e' j hj hmem
    rw [hnew] at hj
    split at hj
    · cases hj
    · next hsame =>
      rw [hretired, List.mem_append, List.mem_singleton] at hmem
      rcases hmem with hmem | rfl
      · exact h.fresh fd' e' j hj hmem
      · -- the number that is retired was armed here only
        exact hsame (h.inj fd' e' fd e j hj hi)
  case retired_lt =>
    intro j hj
    rw [hretired, List.mem_append, List.mem_singleton] at hj
    rcases hj with hj | rfl
    · exact h.retired_lt j hj
    · exact h.lt fd e j hi
  case retired_nodup =>
    rw [hretired]
    exact h.retired_nodup.append (List.nodup_singleton i)
      (List.disjoint_singleton.mpr (h.fresh fd e i hi))
  case complete =>
    intro j hj
    rw [hretired, List.mem_append, List.mem_singleton]
    rcases h.complete j hj with ⟨fd', e', harmed⟩ | hmem
    · by_cases hsame : fd' = fd ∧ e' = e
      · obtain ⟨rfl, rfl⟩ := hsame
        rw [hi] at harmed
        cases harmed
        -- the registration that ends is now among the retired ones
        exact .inr (.inr rfl)
      · exact .inl ⟨fd', e', by rw [hnew, if_neg hsame, harmed]⟩
    · exact .inr (.inl hmem)
  case scheduled =>
    have hmade : l.made[i]?.toList.map some = [l.made[i]?] := by
      rw [List.getElem?_eq_getElem (h.lt fd e i hi)]
      rfl
    have hhanded : ({ l.setArmed fd e none with retired := l.retired ++ [(i, r)] } :
        Ledger n κ φ).handed = l.handed ++ if r = .delEvent then [] else [i] := handed_append l i r
    rw [hhanded, List.map_append, List.map_append, h.scheduled]
    congr 1
    -- `delEvent` schedules nothing, the other ends schedule the caller of the event
    by_cases hr : r = .delEvent
    · rw [if_pos hr, if_pos hr]
      rfl
    · rw [if_neg hr, if_neg hr, h.tasks fd e i hi, hmade]
      rfl

/-- The end of the registrations in `s`. -/
theorem Tracks.retireMask (h : Tracks contexts scheduled l) {fd : Fin n} {s : Mask}
    (hs : ∀ e, s e = true → (contexts fd).event e = true) (r : Retirement) :
    Tracks (Function.update contexts fd ((contexts fd).retire s))
      (scheduled ++ if r = .delEvent then [] else tasksOf (contexts fd) s)
      (l.retireMask fd s r) := by
  -- one event: nothing happens unless it is in `s`
  have hone {contexts : Fin n → FdContext κ φ} {scheduled : List (Nat × Task κ φ)}
      {l : Ledger n κ φ} (h : Tracks contexts scheduled l) (e : Event)
      (he : s e = true → (contexts fd).event e = true) :
      Tracks (Function.update contexts fd ((contexts fd).retire (Mask.only e (s e))))
        (scheduled ++ if r = .delEvent then [] else if s e then (contexts fd).tasks e else [])
        (if s e then l.retire fd e r else l) := by
    cases hse : s e with
    | true => simpa using h.retire (he hse) r
    | false =>
      have hnone : (contexts fd).retire (Mask.only e false) = contexts fd :=
        retire_none _ fun e' => by simp [Mask.only]
      simpa [hnone] using h
  have hread := hone h .read (hs .read)
  have hboth := hone hread .write (by
    intro hw
    simpa [FdContext.retire, Mask.only] using hs .write hw)
  have hwrite : ((contexts fd).retire (Mask.only .read (s .read))).tasks .write =
      (contexts fd).tasks .write := by
    simp [FdContext.tasks, FdContext.retire, Mask.only]
  simp only [Function.update_self, Function.update_idem, FdContext.retire_retire, only_or_only,
    hwrite, List.append_assoc] at hboth
  have htasks :
      ((if r = .delEvent then [] else if s .read then (contexts fd).tasks .read else []) ++
      if r = .delEvent then [] else if s .write then (contexts fd).tasks .write else []) =
      if r = .delEvent then [] else tasksOf (contexts fd) s := by
    split <;> rfl
  rw [htasks] at hboth
  exact hboth

theorem retireMask_none (l : Ledger n κ φ) (fd : Fin n) {s : Mask} (hs : ∀ e, s e = false)
    (r : Retirement) : l.retireMask fd s r = l := by
  simp [Ledger.retireMask, hs]

/-- A step that leaves the contexts as they are makes no entry. -/
theorem next_of_contexts (l : Ledger n κ φ) {m m' : IOManager n κ φ} (hc : m'.contexts = m.contexts)
    (op : Op n κ φ) : l.next m m' op = l := by
  have hgone (fd : Fin n) (e : Event) : gone m m' fd e = false := by
    rw [gone, hc]
    cases (m.contexts fd).event e <;> rfl
  unfold Ledger.next
  split
  · rw [hc, if_neg]
    rintro ⟨hf, ht⟩
    rw [hf] at ht
    exact Bool.false_ne_true ht
  · split
    · rfl
    · exact l.retireMask_none _ (hgone _) _

/-- The events that are armed before the step and not after it. -/
theorem gone_retire {m m' : IOManager n κ φ} {fd : Fin n} {s : Mask}
    (hs : ∀ e, s e = true → (m.contexts fd).event e = true)
    (hc : m'.contexts = Function.update m.contexts fd ((m.contexts fd).retire s)) :
    gone m m' fd = s := by
  funext e
  rw [gone, hc, Function.update_self, FdContext.retire]
  cases he : s e with
  | true => simp [hs e he, he]
  | false => simp [he]

theorem Tracks.next {m m' : IOManager n κ φ} (h : Tracks m.contexts m.scheduled l) {op : Op n κ φ}
    (heff : Effect m m' op) : Tracks m'.contexts m'.scheduled (l.next m m' op) := by
  cases heff with
  | keeps hc hs =>
    rw [l.next_of_contexts hc, hc, hs]
    exact h
  | @registers fd e cb sched self ok hop he hc hs =>
    subst hop
    have hnext := h.register he cb sched self
    rw [← hc] at hnext
    rw [hs, Ledger.next, if_pos]
    · exact hnext
    · rw [hc]
      exact ⟨he, by simp⟩
  | @retires fd r s hop harmed hc hs =>
    have hnext : l.next m m' op = l.retireMask fd s r := by
      unfold Ledger.next
      split
      · cases hop
      · rw [hop]
        dsimp only
        rw [gone_retire harmed hc]
    rw [hnext, hc, hs]
    exact h.retireMask harmed r

end Ledger

/-- What is recorded along every run is true of the state it leads to. -/
theorem ledgerStep_tracks (s : IOManager n κ φ × Ledger n κ φ) (op : Op n κ φ)
    (s' : IOManager n κ φ × Ledger n κ φ)
    (h : Inv s.1 ∧ s.2.Tracks s.1.contexts s.1.scheduled) (hs : ledgerStep s op = some s') :
    Inv s'.1 ∧ s'.2.Tracks s'.1.contexts s'.1.scheduled := by
  obtain ⟨m', hstep, rfl⟩ := Option.map_eq_some_iff.mp hs
  exact ⟨step_inv _ op m' h.1 hstep, h.2.next (step_effect h.1 hstep)⟩

/-! ## What the calls return -/

namespace Ledger

variable {l : Ledger n κ φ} {fd : Fin n}

theorem retire_retired {e : Event} {i : Nat} (h : l.armed fd e = some i) (r : Retirement) :
    (l.retire fd e r).retired = l.retired ++ [(i, r)] := by
  rw [retire, h]

theorem retireMask_only (l : Ledger n κ φ) (fd : Fin n) (e : Event) (r : Retirement) :
    l.retireMask fd (Mask.only e true) r = l.retire fd e r := by
  cases e <;> simp [retireMask, Mask.only]

/-- The end of whatever is armed on a descriptor. -/
theorem retireMask_retired {s : Mask} (hs : ∀ e, s e = (l.armed fd e).isSome) (r : Retirement) :
    (l.retireMask fd s r).retired = l.retired ++ l.endings fd r := by
  unfold retireMask endings
  dsimp only
  rw [hs .read, hs .write]
  cases hread : l.armed fd .read with
  | none =>
    cases hwrite : l.armed fd .write with
    | none => simp [hread, hwrite]
    | some j => simp [hread, hwrite, retire_retired hwrite]
  | some i =>
    -- the end of the one leaves the other armed
    have hkeep : (l.retire fd .read r).armed fd .write = l.armed fd .write := by
      rw [retire, hread]
      exact (l.setArmed_armed fd fd .read .write none).trans (if_neg fun h => Event.noConfusion h.2)
    cases hwrite : l.armed fd .write with
    | none => simp [hread, hwrite, retire_retired hread]
    | some j =>
      simp [hread, hwrite, retire_retired hread, retire_retired (hkeep.trans hwrite)]

theorem endings_ne_nil (l : Ledger n κ φ) (fd : Fin n) (r : Retirement) :
    l.endings fd r ≠ [] ↔ ∃ e, (l.armed fd e).isSome := by
  rw [endings, Ne, List.filterMap_eq_nil_iff]
  simp only [Option.map_eq_none_iff, not_forall, ← Option.isSome_iff_ne_none]
  constructor
  · rintro ⟨e, -, he⟩
    exact ⟨e, he⟩
  · rintro ⟨e, he⟩
    exact ⟨e, by cases e <;> simp, he⟩

/-- `true` is returned just when the ledger gets an entry: for the registration that is made, or for
the end of those that the call is about. -/
structure Answers (m : IOManager n κ φ) (l : Ledger n κ φ) (m' : IOManager n κ φ) : Prop where
  addEvent : ∀ fd e cb sched self ok b, IOManager.addEvent fd e cb sched self ok m = .ok b m' →
    (b = true ↔ (l.next m m' (.addEvent fd e cb sched self ok)).made =
      l.made ++ [(sched, (EventContext.fill cb sched self).task)])
  delEvent : ∀ fd e ok b, IOManager.delEvent fd e ok m = .ok b m' →
    (b = true ↔ ∃ i, l.armed fd e = some i ∧
      (l.next m m' (.delEvent fd e ok)).retired = l.retired ++ [(i, .delEvent)])
  cancelEvent : ∀ fd e ok b, IOManager.cancelEvent fd e ok m = .ok b m' →
    (b = true ↔ ∃ i, l.armed fd e = some i ∧
      (l.next m m' (.cancelEvent fd e ok)).retired = l.retired ++ [(i, .cancelEvent)])
  cancelAll : ∀ fd ok b, IOManager.cancelAll fd ok m = .ok b m' →
    (b = true ↔ l.endings fd .cancelAll ≠ [] ∧
      (l.next m m' (.cancelAll fd ok)).retired = l.retired ++ l.endings fd .cancelAll)

variable {m m' : IOManager n κ φ}

/-- `delEvent` and `cancelEvent` end one registration, or nothing. -/
theorem Tracks.answers_one (ht : l.Tracks m.contexts m.scheduled) {e : Event} {ok b : Bool}
    {r : Retirement} {op : Op n κ φ} {tasks : List (Nat × Task κ φ)}
    (hnext : l.next m m' op = l.retireMask fd (gone m m' fd) r)
    (hrun : (if (m.contexts fd).event e ∧ ok then
        .ok true (m.setFd fd ((m.contexts fd).retire (Mask.only e true)) tasks)
      else .ok false m : Outcome Fault Empty (IOManager n κ φ) Bool) = .ok b m') :
    b = true ↔ ∃ i, l.armed fd e = some i ∧
      (l.next m m' op).retired = l.retired ++ [(i, r)] := by
  split at hrun
  · next he =>
    cases hrun
    obtain ⟨i, hi⟩ : ∃ i, l.armed fd e = some i := by
      rw [← Option.isSome_iff_exists, ht.armed, he.1]
    refine iff_of_true rfl ⟨i, hi, ?_⟩
    rw [hnext, gone_retire (only_armed he.1) rfl, retireMask_only, retire_retired hi]
  · cases hrun
    refine iff_of_false Bool.false_ne_true ?_
    rintro ⟨i, -, hretired⟩
    rw [l.next_of_contexts rfl] at hretired
    exact List.cons_ne_nil _ _ (List.self_eq_append_right.mp hretired)

theorem Tracks.answers (ht : l.Tracks m.contexts m.scheduled) (h : Inv m)
    (m' : IOManager n κ φ) : l.Answers m m' := by
  constructor
  case addEvent =>
    intro fd e cb sched self ok b hrun
    rw [addEvent_eq h] at hrun
    split at hrun
    · cases hrun
    · next he =>
      split at hrun
      · cases hrun
        refine iff_of_true rfl ?_
        rw [Ledger.next, if_pos]
        · rfl
        · exact ⟨Bool.not_eq_true _ ▸ he, by simp [setFd]⟩
      · cases hrun
        refine iff_of_false Bool.false_ne_true fun hmade => ?_
        rw [l.next_of_contexts rfl] at hmade
        exact List.cons_ne_nil _ _ (List.self_eq_append_right.mp hmade)
  case delEvent =>
    intro fd e ok b hrun
    rw [delEvent_eq h] at hrun
    exact ht.answers_one rfl hrun
  case cancelEvent =>
    intro fd e ok b hrun
    rw [cancelEvent_eq h] at hrun
    exact ht.answers_one rfl hrun
  case cancelAll =>
    intro fd ok b hrun
    rw [cancelAll_eq h] at hrun
    split at hrun
    · next hany =>
      cases hrun
      refine iff_of_true rfl ⟨(l.endings_ne_nil fd _).mpr ?_, ?_⟩
      · rw [Mask.any, Bool.or_eq_true] at hany
        rcases hany.1 with he | he
        · exact ⟨.read, (ht.armed fd .read).trans he⟩
        · exact ⟨.write, (ht.armed fd .write).trans he⟩
      · show (l.retireMask fd (gone m _ fd) .cancelAll).retired = _
        rw [gone_retire (fun e he => he) rfl, retireMask_retired fun e => (ht.armed fd e).symm]
    · cases hrun
      refine iff_of_false Bool.false_ne_true ?_
      rintro ⟨hne, hretired⟩
      rw [l.next_of_contexts rfl] at hretired
      exact hne (List.self_eq_append_right.mp hretired)

end Ledger

/-- A call that returns false leaves everything as it was. -/
theorem unchanged_of_false {m m' : IOManager n κ φ} (h : Inv m) (fd : Fin n) (e : Event)
    (ok : Bool) :
    (∀ cb sched self, addEvent fd e cb sched self ok m = .ok false m' → m' = m) ∧
      (delEvent fd e ok m = .ok false m' → m' = m) ∧
      (cancelEvent fd e ok m = .ok false m' → m' = m) ∧
      (cancelAll fd ok m = .ok false m' → m' = m) := by
  have hite {p : Prop} [Decidable p] {m₁ : IOManager n κ φ}
      (hr : (if p then .ok true m₁ else .ok false m : Outcome Fault Empty _ Bool) = .ok false m') :
      m' = m := by
    split at hr
    · cases hr
    · cases hr
      rfl
  rw [delEvent_eq h, cancelEvent_eq h, cancelAll_eq h]
  refine ⟨fun cb sched self hr => ?_, hite, hite, hite⟩
  rw [addEvent_eq h] at hr
  split at hr
  · cases hr
  · exact hite hr

/-- What the ledger says about the registrations made so far. -/
structure Ledger.Settles (m : IOManager n κ φ) (l : Ledger n κ φ) : Prop where
  /-- A registration ends at most once, and it is armed until then. -/
  retired_once : (l.retired.map Prod.fst).Nodup
  armed_iff : ∀ i < l.made.length, (∃ fd e, l.armed fd e = some i) ↔ i ∉ l.retired.map Prod.fst
  armed_bit : ∀ fd e, (l.armed fd e).isSome = (m.contexts fd).event e
  /-- What the schedulers were given are the tasks of the registrations `handed`, one by one. -/
  scheduled : m.scheduled.map some = l.handed.map (l.made[·]?)
  /-- That is no registration which is still armed, none that `delEvent` has ended, and every other
  one exactly once. -/
  armed_zero : ∀ fd e i, l.armed fd e = some i → l.handed.count i = 0
  retired_count : ∀ i r, (i, r) ∈ l.retired → l.handed.count i = if r = .delEvent then 0 else 1

theorem Ledger.Tracks.settles {m : IOManager n κ φ} {l : Ledger n κ φ}
    (h : l.Tracks m.contexts m.scheduled) : l.Settles m := by
  have hsub : l.handed.Sublist (l.retired.map Prod.fst) := List.filter_sublist.map _
  have hnodup : l.handed.Nodup := hsub.nodup h.retired_nodup
  constructor
  case retired_once => exact h.retired_nodup
  case armed_iff =>
    intro i hi
    constructor
    · rintro ⟨fd, e, harmed⟩
      exact h.fresh fd e i harmed
    · exact (h.complete i hi).resolve_right
  case armed_bit => exact h.armed
  case scheduled => exact h.scheduled
  case armed_zero =>
    intro fd e i harmed
    exact List.count_eq_zero.mpr fun hmem => h.fresh fd e i harmed (hsub.subset hmem)
  case retired_count =>
    intro i r hmem
    split
    · next hdel =>
      -- the number stands once in the list, for `delEvent`
      apply List.count_eq_zero.mpr
      intro hhanded
      obtain ⟨⟨j, r'⟩, hr', rfl⟩ := List.mem_map.mp hhanded
      obtain ⟨hmem', hne⟩ := List.mem_filter.mp hr'
      have hsame : (j, r) = (j, r') :=
        List.inj_on_of_nodup_map h.retired_nodup hmem hmem' rfl
      cases hsame
      simp [hdel] at hne
    · next hdel =>
      apply List.count_eq_one_of_mem hnodup
      exact List.mem_map.mpr ⟨(i, r), List.mem_filter.mpr ⟨hmem, by simpa using hdel⟩, rfl⟩

/-- **Every registration is handed out at most once**, after every interleaving of steps: never
while it is armed or when `delEvent` has ended it, and once otherwise; a call returns true just when
the ledger gets its entry, and one that returns false has no effect. -/
theorem registrations_settled (ops : List (Op n κ φ)) (m : IOManager n κ φ)
    (h : runFrom step init ops = some m) :
    (∃ l, runFrom ledgerStep (init, {}) ops = some (m, l) ∧ l.Settles m ∧ ∀ m', l.Answers m m') ∧
      ∀ fd e ok m',
        (∀ cb sched self, addEvent fd e cb sched self ok m = .ok false m' → m' = m) ∧
        (delEvent fd e ok m = .ok false m' → m' = m) ∧
        (cancelEvent fd e ok m = .ok false m' → m' = m) ∧
        (cancelAll fd ok m = .ok false m' → m' = m) := by
  obtain ⟨l, hl⟩ : ∃ l, runFrom ledgerStep (init, {}) ops = some (m, l) :=
    exists_recorded h ({} : Ledger n κ φ)
  obtain ⟨hinv, htracks⟩ := runFrom_invariant ledgerStep_tracks ⟨init_inv, Ledger.init_tracks⟩ hl
  exact ⟨⟨l, hl, htracks.settles, htracks.answers hinv⟩,
    fun fd e ok m' => unchanged_of_false hinv fd e ok⟩

/-- Two registrations, one ended by `delEvent` and the other by `cancelAll`. -/
theorem registrations_settled_two_events :
    ∃ m l, runFrom ledgerStep (init, {})
        (twoEvents ++ [.delEvent 0 .write true, .cancelAll 0 true]) = some (m, l) ∧
      l.retired = [(1, .delEvent), (0, .cancelAll)] ∧ l.Settles m := by
  obtain ⟨⟨l, hl, hsettles, -⟩, -⟩ :=
    registrations_settled (twoEvents ++ [.delEvent 0 .write true, .cancelAll 0 true]) _ rfl
  exact ⟨_, l, hl, by cases hl; rfl, hsettles⟩

end IOManager

end Luwu
