import Luwu.IOManager.Registration

/-!
# Stale entries

`idle` works off the entries of an `epoll_wait` while other threads register and remove events.
An entry is stale when one of its events was removed in between.  If all of them were, `idle` skips
the entry; if only one of two was, it triggers both.
-/

namespace Luwu.IOManager

open Lib

variable {n : Nat} {κ φ : Type}

/-- The entry is skipped, or the kernel refuses, or all that it reports is still armed. -/
def Current (m : IOManager n κ φ) (ev : EpollEvent n) (ok : Bool) : Prop :=
  ok = false ∨
    (∀ e, (m.contexts ev.fd).event e = true → realEvents ev (m.contexts ev.fd).event e = false) ∨
    ∀ e, ev.bits e = true → (m.contexts ev.fd).event e = true

theorem any_eq_false {s : Mask} : s.any = false ↔ ∀ e, s e = false := by
  constructor
  · intro h e
    rw [Mask.any, Bool.or_eq_false_iff] at h
    cases e
    · exact h.1
    · exact h.2
  · intro h
    rw [Mask.any, h .read, h .write]
    rfl

/-- Handling an entry goes wrong exactly when it is not current, and keeps the registrations in
order otherwise. -/
theorem handleEvent_cases {m : IOManager n κ φ} (h : Inv m) (ev : EpollEvent n) (ok : Bool) :
    (Current m ev ok ∧ ∃ m', handleEvent ev ok m = .ok () m' ∧ Inv m') ∨
      (¬ Current m ev ok ∧ handleEvent ev ok m = .fault .triggerAssert) := by
  have hrun := handleEvent_eq h ev ok
  by_cases hgo : Mask.any (fun e => (m.contexts ev.fd).event e &&
      realEvents ev (m.contexts ev.fd).event e) ∧ ok
  · rw [if_pos hgo] at hrun
    by_cases hin : ev.bits.within (m.contexts ev.fd).event = true
    · rw [if_pos hin] at hrun
      -- every event of the entry is still armed
      exact .inl ⟨.inr (.inr (Mask.within_iff.mp hin)), _, hrun,
        setFd_inv h ev.fd ((h.wf ev.fd).retire _) _⟩
    · rw [if_neg hin] at hrun
      -- one of them is not: `triggerEvent` asserts
      refine .inr ⟨?_, hrun⟩
      rintro (hok | hskip | hall)
      · rw [hok] at hgo
        cases hgo.2
      · have hnone : Mask.any (fun e => (m.contexts ev.fd).event e &&
            realEvents ev (m.contexts ev.fd).event e) = false := by
          rw [any_eq_false]
          intro e
          cases he : (m.contexts ev.fd).event e with
          | false => rfl
          | true => rw [hskip e he, Bool.and_false]
        rw [hnone] at hgo
        cases hgo.1
      · exact hin (Mask.within_iff.mpr hall)
  · rw [if_neg hgo] at hrun
    -- nothing to do, or `epoll_ctl` has failed: the entry is passed over
    refine .inl ⟨?_, m, hrun, h⟩
    cases hok : ok with
    | false => exact .inl rfl
    | true =>
      refine .inr (.inl ?_)
      have hnone := mt (fun hany => ⟨hany, hok⟩) hgo
      rw [Bool.not_eq_true, any_eq_false] at hnone
      intro e he
      have := hnone e
      rwa [he, Bool.true_and] at this

/-- The condition on a step: the entry that it handles is current. -/
def StepCurrent (m : IOManager n κ φ) (op : Op n κ φ) : Prop :=
  ∀ w ok ev rest, op = .handleNext w ok → m.events w = ev :: rest → Current m ev ok

theorem drop_apply {α : Type} (c : M n κ φ α) (m : IOManager n κ φ) :
    drop c m = (c m).bind fun _ m' => .ok () m' := rfl

/-- A step triggers an event that is not armed exactly when it handles an entry that is not
current; if it returns, the registrations are in order. -/
theorem exec_cases {m : IOManager n κ φ} (h : Inv m) (op : Op n κ φ) :
    (StepCurrent m op ∧
      (exec op m = .fault .addAssert ∨ ∃ m', exec op m = .ok () m' ∧ Inv m')) ∨
      (¬ StepCurrent m op ∧ exec op m = .fault .triggerAssert) := by
  have hother : ∀ {op : Op n κ φ}, (∀ w ok, op ≠ .handleNext w ok) → StepCurrent m op := by
    intro op hne w ok ev rest hop
    exact absurd hop (hne w ok)
  cases op with
  | addEvent fd e cb sched self ok =>
    -- `addEvent` asserts that the event is not armed yet
    refine .inl ⟨hother (by simp), ?_⟩
    simp only [exec, drop_apply, addEvent_eq h]
    split
    · exact .inl rfl
    · split
      · exact .inr ⟨_, rfl, setFd_inv h fd ((h.wf fd).register e cb sched self) _⟩
      · exact .inr ⟨_, rfl, h⟩
  | delEvent fd e ok =>
    refine .inl ⟨hother (by simp), .inr ?_⟩
    simp only [exec, drop_apply, delEvent_eq h]
    split
    · exact ⟨_, rfl, setFd_inv h fd ((h.wf fd).retire _) _⟩
    · exact ⟨_, rfl, h⟩
  | cancelEvent fd e ok =>
    refine .inl ⟨hother (by simp), .inr ?_⟩
    simp only [exec, drop_apply, cancelEvent_eq h]
    split
    · exact ⟨_, rfl, setFd_inv h fd ((h.wf fd).retire _) _⟩
    · exact ⟨_, rfl, h⟩
  | cancelAll fd ok =>
    refine .inl ⟨hother (by simp), .inr ?_⟩
    simp only [exec, drop_apply, cancelAll_eq h]
    split
    · exact ⟨_, rfl, setFd_inv h fd ((h.wf fd).retire _) _⟩
    · exact ⟨_, rfl, h⟩
  | epollWait w evs =>
    exact .inl ⟨hother (by simp), .inr ⟨_, rfl, ⟨h.wf, h.interest, h.pending⟩⟩⟩
  | handleNext w ok =>
    -- the next entry that `epoll_wait` has returned, which may be out of date by now
    simp only [exec, Prog.bind_apply, Prog.gets_apply, Outcome.bind_ok]
    cases hevs : m.events w with
    | nil =>
      refine .inl ⟨?_, .inr ⟨m, rfl, h⟩⟩
      intro w' ok' ev rest hop hw
      cases hop
      rw [hevs] at hw
      cases hw
    | cons ev rest =>
      -- taking the entry off the list touches no registration
      have hinv : Inv { m with events := Function.update m.events w rest } :=
        ⟨h.wf, h.interest, h.pending⟩
      have hiff : StepCurrent m (.handleNext w ok) ↔ Current m ev ok := by
        constructor
        · intro hc
          exact hc w ok ev rest rfl hevs
        · intro hc w' ok' ev' rest' hop hw
          cases hop
          rw [hevs] at hw
          cases hw
          exact hc
      simp only [Prog.bind_apply, Prog.modify_apply, Outcome.bind_ok]
      rw [hiff]
      rcases handleEvent_cases hinv ev ok with ⟨hc, hrun⟩ | ⟨hc, hrun⟩
      · exact .inl ⟨hc, .inr hrun⟩
      · exact .inr ⟨hc, hrun⟩

theorem step_inv (m : IOManager n κ φ) (op : Op n κ φ) (m' : IOManager n κ φ) (h : Inv m)
    (hs : step m op = some m') : Inv m' := by
  unfold step at hs
  split at hs
  · rcases exec_cases h op with ⟨-, hf | ⟨m₁, hrun, hinv⟩⟩ | ⟨-, hf⟩
    · rw [hf] at hs
      cases hs
    · rw [hrun] at hs
      cases hs
      exact hinv
    · rw [hf] at hs
      cases hs
  · cases hs

/-- **When `triggerEvent` finds its event armed.**  After every interleaving of steps that has gone
well so far, the counter is at least the number of armed events, and the next step triggers only
armed events, whose scheduler is set, exactly when the entry it handles (if it handles one) is
current: none of its events is armed any more, or all of those it reports are, or `epoll_ctl`
refuses. -/
theorem trigger_armed_iff (ops : List (Op n κ φ)) (m : IOManager n κ φ)
    (h : runFrom step init ops = some m) (op : Op n κ φ) :
    ((m.armed : Int) ≤ m.pending ∧ exec op m ≠ .fault .triggerAssert ∧
      exec op m ≠ .fault .nullScheduler) ↔ StepCurrent m op := by
  have hinv := runFrom_invariant step_inv init_inv h
  rcases exec_cases hinv op with ⟨hc, hf | ⟨m', hrun, -⟩⟩ | ⟨hc, hf⟩
  · rw [hf]
    exact iff_of_true ⟨Int.le_of_eq hinv.pending.symm, by simp, by simp⟩ hc
  · rw [hrun]
    exact iff_of_true ⟨Int.le_of_eq hinv.pending.symm, by simp, by simp⟩ hc
  · rw [hf]
    exact iff_of_false (fun hp => hp.2.1 rfl) hc

/-- The reads and writes of two fibers on one descriptor, both reported. -/
def twoEvents : List (Op 1 Unit Nat) :=
  [.addEvent 0 .read none 0 10 true, .addEvent 0 .write none 0 11 true,
    .epollWait 0 [⟨0, fun _ => true, false, false⟩]]

/-- Handled at once, both events are triggered. -/
theorem trigger_armed_two_events :
    ∃ m, runFrom step init twoEvents = some m ∧
      exec (.handleNext 0 true) m ≠ .fault .triggerAssert := by
  refine ⟨_, rfl, ((trigger_armed_iff twoEvents _ rfl (.handleNext 0 true)).mpr ?_).2.1⟩
  intro w ok ev rest hop hevs
  cases hop
  cases hevs
  exact .inr (.inr fun e _ => by cases e <;> rfl)

/-- One of the two is removed between `epoll_wait` and the handling of its entry. -/
theorem trigger_removed_event :
    ∃ m, runFrom step init (twoEvents ++ [.delEvent 0 .write true]) = some m ∧
      m.valid (.handleNext 0 true) = true ∧
      exec (.handleNext 0 true) m = .fault .triggerAssert :=
  ⟨_, rfl, rfl, rfl⟩

end Luwu.IOManager
