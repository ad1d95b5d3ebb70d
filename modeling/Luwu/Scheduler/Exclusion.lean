import Mathlib.Data.List.Perm.Subperm
import Luwu.Scheduler.Basic

/-!
# One worker per fiber

A fiber's registration and its execution overlap between the moment it registers itself and the
`swapcontext` of its `yield`: in this window any worker may take the registration.  `Phase` is the
life of a fiber when no worker does, and `Tracks` relates it to the scheduler's state.
-/

namespace Luwu.Scheduler

open Lib

variable {κ : Type}

/-! ## Registrations -/

def Body.fiber? : Body κ → Option Nat
  | .fiber n => some n
  | .cb _ => none

/-- The fibers among queued tasks. -/
def queueFibers (q : List (SchedulerTask κ)) : List Nat := q.filterMap fun t => t.body.fiber?

/-- The registrations of fibers: in the queue, and with events and timers. -/
def tokens (s : Scheduler κ) : List Nat := queueFibers s.queue ++ s.waiting

theorem queueFibers_append (q r : List (SchedulerTask κ)) :
    queueFibers (q ++ r) = queueFibers q ++ queueFibers r := List.filterMap_append

theorem queueFibers_cons (t : SchedulerTask κ) (q : List (SchedulerTask κ)) :
    queueFibers (t :: q) = t.body.fiber?.toList ++ queueFibers q := by
  cases h : t.body.fiber? with
  | none => simp [queueFibers, h]
  | some n => simp [queueFibers, h]

/-- The scan takes one task out and leaves the others in their order. -/
theorem take_split {w : Nat} {q rest : List (SchedulerTask κ)} {t : SchedulerTask κ}
    (h : take w q = some (t, rest)) : ∃ l r, q = l ++ t :: r ∧ rest = l ++ r := by
  induction q generalizing rest with
  | nil => cases h
  | cons x q ih =>
    rw [take] at h
    split at h
    · rw [Option.map_eq_some_iff] at h
      obtain ⟨⟨t', rest'⟩, hrec, heq⟩ := h
      cases heq
      obtain ⟨l, r, hq, hrest⟩ := ih hrec
      exact ⟨x :: l, r, by rw [hq]; rfl, by rw [hrest]; rfl⟩
    · cases h
      exact ⟨[], q, rfl, rfl⟩

theorem take_fibers {w : Nat} {q rest : List (SchedulerTask κ)} {t : SchedulerTask κ}
    (h : take w q = some (t, rest)) :
    (queueFibers q).Perm (t.body.fiber?.toList ++ queueFibers rest) := by
  obtain ⟨l, r, rfl, rfl⟩ := take_split h
  rw [queueFibers_append, queueFibers_cons, queueFibers_append, ← List.append_assoc,
    ← List.append_assoc]
  exact List.perm_append_comm.append_right _

theorem tokens_push (s : Scheduler κ) (t : SchedulerTask κ) :
    (s.push t).tokens.Perm (t.body.fiber?.toList ++ s.tokens) := by
  simp only [tokens, push, queueFibers_append, queueFibers_cons]
  rw [show queueFibers ([] : List (SchedulerTask κ)) = [] from rfl, List.append_nil]
  refine (List.perm_append_comm.append_right _).trans ?_
  rw [List.append_assoc]

/-! ## The life of a fiber -/

inductive Phase where
  /-- Not made yet. -/
  | fresh
  /-- Registered, and not being executed. -/
  | parked
  /-- Taken out of the queue by a worker. -/
  | taken (w : Nat)
  /-- Executed, and not registered. -/
  | active (w : Nat)
  /-- Executed, and registered. -/
  | leaving (w : Nat)
  /-- Its function has returned. -/
  | ending (w : Nat)
  /-- Over. -/
  | dead
deriving DecidableEq, Repr

/-- The worker that has the fiber. -/
def Phase.owner : Phase → Option Nat
  | taken w => some w
  | active w => some w
  | leaving w => some w
  | ending w => some w
  | _ => none

/-- What a worker's place in the loop says about the fiber it has. -/
def PcOk (phase : Nat → Phase) (w : Nat) : Pc κ → Prop
  | .got (.fiber n) => phase n = .taken w
  | .running (.task n) false => phase n = .active w
  | .running (.task n) true => phase n = .leaving w
  | .yielding (.task n) => phase n = .leaving w ∨ phase n = .ending w
  | .running (.idle w') _ => w' = w
  | .yielding (.idle w') => w' = w
  | _ => True

/-- And about its idle fiber. -/
def IdleOk (f : Fiber) : Pc κ → Prop
  | .running (.idle _) _ => f.state = .running
  | .yielding (.idle _) => f.state ≠ .running
  | _ => f.state ≠ .running ∧ f.saved = true

structure Tracks (s : Scheduler κ) (phase : Nat → Phase) : Prop where
  token_iff : ∀ n, n ∈ s.tokens ↔ phase n = .parked ∨ ∃ w, phase n = .leaving w
  nodup : s.tokens.Nodup
  new : ∀ n, s.nextFiber ≤ n → phase n = .fresh
  worker : ∀ w, PcOk phase w (s.workers w)
  leaving : ∀ n w, phase n = .leaving w →
    s.workers w = .running (.task n) true ∨ s.workers w = .yielding (.task n)
  ready : ∀ n, (phase n = .parked ∨ ∃ w, phase n = .taken w) → s.fibers (.task n) = .new
  running : ∀ w n b, s.workers w = .running (.task n) b → (s.fibers (.task n)).state = .running
  yielded : ∀ w n, s.workers w = .yielding (.task n) → phase n = .leaving w →
    (s.fibers (.task n)).state = .ready
  idle : ∀ w, IdleOk (s.fibers (.idle w)) (s.workers w)

theorem init_tracks : Tracks (init : Scheduler κ) fun _ => .fresh where
  token_iff n := by simp [init, tokens, queueFibers]
  nodup := by simp [init, tokens, queueFibers]
  new _ _ := rfl
  worker _ := trivial
  leaving _ _ h := by cases h
  ready n h := by
    rcases h with h | ⟨w, h⟩
    · cases h
    · cases h
  running _ _ _ h := by cases h
  yielded _ _ h := by cases h
  idle _ := ⟨by simp [init, Fiber.new], rfl⟩

/-- The worker that executes a fiber, from `resume` to the `swapcontext` of its `yield`. -/
def Executes (s : Scheduler κ) (w : Nat) (f : FiberId) : Prop :=
  (∃ b, s.workers w = .running f b) ∨ s.workers w = .yielding f

/-- No fiber is executed by two workers. -/
def Exclusive (s : Scheduler κ) : Prop :=
  ∀ w w' f, Executes s w f → Executes s w' f → w = w'

namespace Tracks

variable {s : Scheduler κ} {phase : Nat → Phase}

/-- The worker that executes a task's fiber owns it. -/
theorem owner_of_executes (h : Tracks s phase) {w n : Nat} (hw : Executes s w (.task n)) :
    (phase n).owner = some w := by
  have hpc := h.worker w
  rcases hw with ⟨b, hb⟩ | hy
  · rw [hb] at hpc
    cases b with
    | false =>
      rw [show phase n = .active w from hpc]
      rfl
    | true =>
      rw [show phase n = .leaving w from hpc]
      rfl
  · rw [hy] at hpc
    rcases hpc with hpc | hpc
    · rw [hpc]
      rfl
    · rw [hpc]
      rfl

theorem exclusive (h : Tracks s phase) : Exclusive s := by
  intro w w' f hw hw'
  cases f with
  | task n =>
    have howner := h.owner_of_executes hw
    rw [h.owner_of_executes hw'] at howner
    exact (Option.some.inj howner).symm
  | idle v =>
    have hv : ∀ u, Executes s u (.idle v) → v = u := by
      intro u hu
      have hpc := h.worker u
      rcases hu with ⟨b, hb⟩ | hy
      · rw [hb] at hpc
        exact hpc
      · rw [hy] at hpc
        exact hpc
    exact (hv w hw).symm.trans (hv w' hw')

end Tracks

/-- A change of one fiber's phase concerns only the worker that owns the fiber. -/
theorem PcOk.update {phase : Nat → Phase} {w n : Nat} {pc : Pc κ} (h : PcOk phase w pc) (p : Phase)
    (hn : (phase n).owner ≠ some w) : PcOk (Function.update phase n p) w pc := by
  -- a fiber that this worker owns is not the one that changes
  have hne : ∀ m q, phase m = q → q.owner = some w → Function.update phase n p m = q := by
    intro m q hm hq
    have hmn : m ≠ n := by
      rintro rfl
      exact hn (by rw [hm, hq])
    rw [Function.update_of_ne hmn, hm]
  cases pc with
  | got b =>
    cases b with
    | fiber m => exact hne m _ h rfl
    | cb f => trivial
  | running f b =>
    cases f with
    | task m =>
      cases b with
      | false => exact hne m _ h rfl
      | true => exact hne m _ h rfl
    | idle v => exact h
  | yielding f =>
    cases f with
    | task m =>
      rcases h with h | h
      · exact .inl (hne m _ h rfl)
      · exact .inr (hne m _ h rfl)
    | idle v => exact h
  | top => trivial
  | noTask => trivial
  | returned f => trivial
  | left => trivial

theorem setFiber_self (s : Scheduler κ) (f : FiberId) (v : Fiber) :
    (s.setFiber f v).fibers f = v := Function.update_self _ _ _

theorem setFiber_of_ne (s : Scheduler κ) {f g : FiberId} (v : Fiber) (hg : g ≠ f) :
    (s.setFiber f v).fibers g = s.fibers g := Function.update_of_ne hg _ _

theorem task_ne {m n : Nat} (hm : m ≠ n) : FiberId.task m ≠ .task n :=
  fun hc => hm (FiberId.task.inj hc)

theorem idle_ne {v w : Nat} (hv : v ≠ w) : FiberId.idle v ≠ .idle w :=
  fun hc => hv (FiberId.idle.inj hc)

theorem idle_ne_task (v n : Nat) : FiberId.idle v ≠ .task n := nofun

theorem task_ne_idle (n v : Nat) : FiberId.task n ≠ .idle v := nofun

/-! ## Steps -/

namespace Tracks

variable {s s' : Scheduler κ} {phase : Nat → Phase}

/-- A step of the worker `w` that concerns no task's fiber: its own idle fiber may change. -/
theorem stay (h : Tracks s phase) {w : Nat} {pc : Pc κ}
    (hworkers : s'.workers = Function.update s.workers w pc)
    (htask : ∀ n, s'.fibers (.task n) = s.fibers (.task n))
    (hidle : ∀ v, v ≠ w → s'.fibers (.idle v) = s.fibers (.idle v))
    (htokens : s'.tokens.Perm s.tokens) (hnext : s'.nextFiber = s.nextFiber)
    (hold : ∀ n, ¬ Executes s w (.task n))
    (hpc : PcOk phase w pc) (hnew : ∀ n, pc ≠ .yielding (.task n))
    (hrun : ∀ n b, pc ≠ .running (.task n) b)
    (hok : IdleOk (s'.fibers (.idle w)) pc) : Tracks s' phase where
  token_iff n := by
    rw [htokens.mem_iff]
    exact h.token_iff n
  nodup := htokens.nodup_iff.mpr h.nodup
  new n hn := h.new n (by rwa [hnext] at hn)
  worker v := by
    rw [hworkers]
    by_cases hv : v = w
    · rw [hv, Function.update_self]
      exact hpc
    · rw [Function.update_of_ne hv]
      exact h.worker v
  leaving n v hn := by
    -- a fiber on its way out is on a worker, and that is not `w`
    have hv : v ≠ w := by
      rintro rfl
      rcases h.leaving n v hn with hr | hy
      · exact hold n (.inl ⟨true, hr⟩)
      · exact hold n (.inr hy)
    rw [hworkers, Function.update_of_ne hv]
    exact h.leaving n v hn
  ready n hn := by
    rw [htask]
    exact h.ready n hn
  running v n b hv := by
    rw [htask]
    by_cases hvw : v = w
    · rw [hworkers, hvw, Function.update_self] at hv
      exact absurd hv (hrun n b)
    · rw [hworkers, Function.update_of_ne hvw] at hv
      exact h.running v n b hv
  yielded v n hv hn := by
    rw [htask]
    by_cases hvw : v = w
    · rw [hworkers, hvw, Function.update_self] at hv
      exact absurd hv (hnew n)
    · rw [hworkers, Function.update_of_ne hvw] at hv
      exact h.yielded v n hv hn
  idle v := by
    rw [hworkers]
    by_cases hv : v = w
    · subst hv
      rw [Function.update_self]
      exact hok
    · rw [Function.update_of_ne hv, hidle v hv]
      exact h.idle v

/-- A step of the worker `w` that brings the fiber `n` into the phase `p`. -/
theorem move (h : Tracks s phase) {w n : Nat} {p : Phase} {pc : Pc κ}
    (hworkers : s'.workers = Function.update s.workers w pc)
    (htask : ∀ m, m ≠ n → s'.fibers (.task m) = s.fibers (.task m))
    (hidle : ∀ v, s'.fibers (.idle v) = s.fibers (.idle v))
    (htokens : ∀ m, m ≠ n → (m ∈ s'.tokens ↔ m ∈ s.tokens))
    (htoken : n ∈ s'.tokens ↔ p = .parked ∨ ∃ v, p = .leaving v)
    (hnodup : s'.tokens.Nodup)
    (hnext : s.nextFiber ≤ s'.nextFiber ∧ n < s'.nextFiber)
    (hown : ∀ v, (phase n).owner = some v → v = w)
    (hold : ∀ m, Executes s w (.task m) → m = n)
    (hpc : PcOk (Function.update phase n p) w pc)
    (hleaving : ∀ v, p = .leaving v →
      v = w ∧ (pc = .running (.task n) true ∨ pc = .yielding (.task n)))
    (hready : (p = .parked ∨ ∃ v, p = .taken v) → s'.fibers (.task n) = .new)
    (hrun : ∀ m b, pc = .running (.task m) b →
      m = n ∧ (s'.fibers (.task n)).state = .running)
    (hyield : ∀ m, pc = .yielding (.task m) →
      m = n ∧ (p = .leaving w → (s'.fibers (.task n)).state = .ready))
    (hok : IdleOk (s.fibers (.idle w)) pc) : Tracks s' (Function.update phase n p) := by
  have hother : ∀ v, v ≠ w → (phase n).owner ≠ some v := fun v hv hc => hv (hown v hc)
  -- the fibers of other workers are other fibers
  have hne : ∀ v m, v ≠ w → Executes s v (.task m) → m ≠ n := by
    rintro v m hv hm rfl
    exact hother v hv (h.owner_of_executes hm)
  refine ⟨?_, hnodup, ?_, ?_, ?_, ?_, ?_, ?_, ?_⟩
  · intro m
    by_cases hm : m = n
    · subst hm
      rw [Function.update_self]
      exact htoken
    · rw [Function.update_of_ne hm, htokens m hm]
      exact h.token_iff m
  · intro m hm
    rw [Function.update_of_ne (by omega)]
    exact h.new m (by omega)
  · intro v
    rw [hworkers]
    by_cases hv : v = w
    · rw [hv, Function.update_self]
      exact hpc
    · rw [Function.update_of_ne hv]
      exact (h.worker v).update p (hother v hv)
  · intro m v hm
    by_cases hmn : m = n
    · subst hmn
      rw [Function.update_self] at hm
      obtain ⟨rfl, hpc'⟩ := hleaving v hm
      rw [hworkers, Function.update_self]
      exact hpc'
    · rw [Function.update_of_ne hmn] at hm
      have hex := h.leaving m v hm
      have hv : v ≠ w := by
        rintro rfl
        rcases hex with hr | hy
        · exact hmn (hold m (.inl ⟨true, hr⟩))
        · exact hmn (hold m (.inr hy))
      rw [hworkers, Function.update_of_ne hv]
      exact hex
  · intro m hm
    by_cases hmn : m = n
    · subst hmn
      rw [Function.update_self] at hm
      exact hready hm
    · rw [Function.update_of_ne hmn] at hm
      rw [htask m hmn]
      exact h.ready m hm
  · intro v m b hv
    by_cases hvw : v = w
    · rw [hworkers, hvw, Function.update_self] at hv
      obtain ⟨rfl, hstate⟩ := hrun m b hv
      exact hstate
    · rw [hworkers, Function.update_of_ne hvw] at hv
      rw [htask m (hne v m hvw (.inl ⟨b, hv⟩))]
      exact h.running v m b hv
  · intro v m hv hm
    by_cases hvw : v = w
    · subst hvw
      rw [hworkers, Function.update_self] at hv
      obtain ⟨rfl, hstate⟩ := hyield m hv
      rw [Function.update_self] at hm
      exact hstate hm
    · rw [hworkers, Function.update_of_ne hvw] at hv
      have hmn := hne v m hvw (.inr hv)
      rw [Function.update_of_ne hmn] at hm
      rw [htask m hmn]
      exact h.yielded v m hv hm
  · intro v
    rw [hworkers, hidle]
    by_cases hv : v = w
    · subst hv
      rw [Function.update_self]
      exact hok
    · rw [Function.update_of_ne hv]
      exact h.idle v

theorem retoken (h : Tracks s phase) {q : List (SchedulerTask κ)} {ws : List Nat}
    (htokens : (queueFibers q ++ ws).Perm s.tokens) :
    Tracks { s with queue := q, waiting := ws } phase where
  token_iff n := by
    refine Iff.trans ?_ (h.token_iff n)
    exact htokens.mem_iff
  nodup := htokens.nodup_iff.mpr h.nodup
  new := h.new
  worker := h.worker
  leaving := h.leaving
  ready := h.ready
  running := h.running
  yielded := h.yielded
  idle := h.idle

theorem pushCb (h : Tracks s phase) (f : κ) (thread : Option Nat) :
    Tracks (s.push { body := .cb f, thread }) phase :=
  h.retoken (s.tokens_push { body := .cb f, thread })

theorem trigger (h : Tracks s phase) {n : Nat} (hn : n ∈ s.waiting) :
    Tracks ({ s with waiting := s.waiting.erase n }.push { body := .fiber n }) phase := by
  refine h.retoken ((tokens_push { s with waiting := s.waiting.erase n } _).trans ?_)
  simp only [tokens, Body.fiber?, Option.toList_some, List.singleton_append]
  refine List.Perm.trans ?_ ((List.perm_cons_erase hn).symm.append_left _)
  exact List.perm_middle.symm

theorem pushFiber (h : Tracks s phase) (thread : Option Nat) :
    Tracks { (s.setFiber (.task s.nextFiber) .new).push { body := .fiber s.nextFiber, thread } with
      nextFiber := s.nextFiber + 1 } (Function.update phase s.nextFiber .parked) := by
  have hfresh : phase s.nextFiber = .fresh := h.new _ (Nat.le_refl _)
  have hperm := tokens_push (s.setFiber (.task s.nextFiber) .new)
    { body := .fiber s.nextFiber, thread }
  have hnot : s.nextFiber ∉ s.tokens := by
    rw [h.token_iff, hfresh]
    simp
  -- nobody executes a fiber that has not been made yet
  have hexec : ∀ w n, Executes s w (.task n) → n ≠ s.nextFiber := by
    rintro w n hw rfl
    have := h.owner_of_executes hw
    rw [hfresh] at this
    cases this
  -- the other fibers are as they were
  have htask : ∀ n, n ≠ s.nextFiber →
      Function.update s.fibers (.task s.nextFiber) .new (.task n) = s.fibers (.task n) := by
    intro n hn
    exact Function.update_of_ne (by simpa using hn) _ _
  refine ⟨?_, ?_, ?_, ?_, ?_, ?_, ?_, ?_, ?_⟩
  · intro n
    refine hperm.mem_iff.trans ?_
    by_cases hn : n = s.nextFiber
    · subst hn
      simp [Body.fiber?]
    · rw [Function.update_of_ne hn, ← h.token_iff]
      simp [Body.fiber?, hn]
      rfl
  · refine hperm.nodup_iff.mpr ?_
    simp only [Body.fiber?, Option.toList_some, List.singleton_append, List.nodup_cons]
    exact ⟨hnot, h.nodup⟩
  · intro n hn
    have hn' : s.nextFiber + 1 ≤ n := hn
    rw [Function.update_of_ne (by omega)]
    exact h.new n (by omega)
  · intro w
    exact (h.worker w).update _ (by rw [hfresh]; simp [Phase.owner])
  · intro n w hn
    by_cases hnn : n = s.nextFiber
    · subst hnn
      rw [Function.update_self] at hn
      cases hn
    · rw [Function.update_of_ne hnn] at hn
      exact h.leaving n w hn
  · intro n hn
    by_cases hnn : n = s.nextFiber
    · subst hnn
      exact Function.update_self _ _ _
    · rw [Function.update_of_ne hnn] at hn
      exact (htask n hnn).trans (h.ready n hn)
  · intro w n b hw
    exact (congrArg Fiber.state (htask n (hexec w n (.inl ⟨b, hw⟩)))).trans (h.running w n b hw)
  · intro w n hw hn
    have hnn := hexec w n (.inr hw)
    rw [Function.update_of_ne hnn] at hn
    exact (congrArg Fiber.state (htask n hnn)).trans (h.yielded w n hw hn)
  · intro w
    have hidle : Function.update s.fibers (.task s.nextFiber) .new (.idle w) = s.fibers (.idle w) :=
      Function.update_of_ne (by simp) _ _
    exact hidle ▸ h.idle w

/-- Of what is registered, only a fiber on its way out is being executed. -/
theorem parked_of_token (h : Tracks s phase) {n : Nat} (hn : n ∈ s.tokens)
    (hno : ∀ w, ¬ Executes s w (.task n)) : phase n = .parked := by
  rcases (h.token_iff n).mp hn with hp | ⟨w, hl⟩
  · exact hp
  · rcases h.leaving n w hl with hr | hy
    · exact absurd (.inl ⟨true, hr⟩) (hno w)
    · exact absurd (.inr hy) (hno w)

theorem not_executes (hw : ∀ f b, s.workers w ≠ .running f b) (hy : ∀ f, s.workers w ≠ .yielding f)
    (f : FiberId) : ¬ Executes s w f := by
  rintro (⟨b, hb⟩ | hb)
  · exact hw f b hb
  · exact hy f hb

/-- The critical section of `run`, if the task taken is not a fiber in execution. -/
theorem dequeue (h : Tracks s phase) {w : Nat} (hw : s.workers w = .top)
    (hfree : ∀ n thread rest, take w s.queue = some (⟨.fiber n, thread⟩, rest) →
      ∀ v, ¬ Executes s v (.task n)) :
    ∃ s' phase', Scheduler.dequeue w s = .ok () s' ∧ Tracks s' phase' := by
  have hnot := not_executes (s := s) (w := w) (by simp [hw]) (by simp [hw])
  have hidle := h.idle w
  rw [hw] at hidle
  simp only [Scheduler.dequeue, Prog.modify_apply, Outcome.ok.injEq, true_and]
  cases ht : take w s.queue with
  | none =>
    refine ⟨_, phase, rfl, h.stay rfl (fun _ => rfl) (fun _ _ => rfl) (List.Perm.refl _) rfl
      (fun n => hnot _) trivial (by simp) (by simp) hidle⟩
  | some r =>
    obtain ⟨⟨body, thread⟩, rest⟩ := r
    have hperm := (take_fibers ht).append_right s.waiting
    cases body with
    | cb f =>
      refine ⟨_, phase, rfl, h.stay rfl (fun _ => rfl) (fun _ _ => rfl) hperm.symm rfl
        (fun n => hnot _) trivial (by simp) (by simp) hidle⟩
    | fiber n =>
      have hperm' : s.tokens.Perm (n :: (queueFibers rest ++ s.waiting)) := hperm
      -- by the condition the fiber is not in execution, so it is parked
      have hparked : phase n = .parked :=
        h.parked_of_token (hperm'.mem_iff.mpr List.mem_cons_self) (hfree n thread rest ht)
      have hnodup := hperm'.nodup_iff.mp h.nodup
      obtain ⟨hnotin, hnd⟩ := List.nodup_cons.mp hnodup
      -- from now on the fiber belongs to this worker
      refine ⟨_, Function.update phase n (.taken w), rfl, h.move rfl (fun _ _ => rfl)
        (fun _ => rfl) ?_ ?_ hnd ⟨Nat.le_refl _, ?_⟩ ?_ (fun m hm => absurd hm (hnot _)) ?_ ?_ ?_
        (by simp) (by simp) hidle⟩
      · intro m hm
        refine Iff.trans ?_ hperm'.symm.mem_iff
        rw [List.mem_cons, or_iff_right hm]
        rfl
      · refine iff_of_false hnotin ?_
        simp
      · by_contra hge
        have hf := h.new n (Nat.le_of_not_lt hge)
        rw [hparked] at hf
        cases hf
      · intro v hv
        rw [hparked] at hv
        cases hv
      · exact Function.update_self _ _ _
      · intro v hv
        cases hv
      · intro _
        exact h.ready n (.inl hparked)

/-- A fiber that is made is not in the way of any other. -/
theorem lt_next (h : Tracks s phase) {n : Nat} (hn : phase n ≠ .fresh) : n < s.nextFiber := by
  by_contra hge
  exact hn (h.new n (Nat.le_of_not_lt hge))

/-- A worker resumes the fiber that it has taken: it is `READY` and its context is saved. -/
theorem resumeTaken (h : Tracks s phase) {w n : Nat} (hw : s.workers w = .got (.fiber n)) :
    s.fibers (.task n) = .new ∧
      Tracks ((s.setFiber (.task n) ⟨.running, false⟩).setWorker w (.running (.task n) false))
        (Function.update phase n (.active w)) := by
  have htaken : phase n = .taken w := by
    have := h.worker w
    rwa [hw] at this
  have hnot := not_executes (s := s) (w := w) (by simp [hw]) (by simp [hw])
  have hidle := h.idle w
  rw [hw] at hidle
  have htok : n ∉ s.tokens := by
    rw [h.token_iff, htaken]
    simp
  refine ⟨h.ready n (.inr ⟨w, htaken⟩), h.move rfl
    (fun m hm => s.setFiber_of_ne ⟨.running, false⟩ (task_ne hm))
    (fun v => s.setFiber_of_ne ⟨.running, false⟩ (idle_ne_task v n)) (fun _ _ => Iff.rfl) ?_ h.nodup
    ⟨Nat.le_refl _, h.lt_next (by rw [htaken]; simp)⟩ ?_ (fun m hm => absurd hm (hnot _))
    (Function.update_self _ _ _) (by simp) (by simp) ?_ (by simp) hidle⟩
  · exact iff_of_false htok (by simp)
  · intro v hv
    rw [htaken] at hv
    exact (Option.some.inj hv).symm
  · intro m b hb
    cases hb
    exact ⟨rfl, by rw [setWorker, setFiber_self]⟩

theorem resumeNew (h : Tracks s phase) {w : Nat} {f : κ} (hw : s.workers w = .got (.cb f)) :
    Tracks { (s.setFiber (.task s.nextFiber) ⟨.running, false⟩).setWorker w
        (.running (.task s.nextFiber) false) with nextFiber := s.nextFiber + 1 }
      (Function.update phase s.nextFiber (.active w)) := by
  have hfresh : phase s.nextFiber = .fresh := h.new _ (Nat.le_refl _)
  have hnot := not_executes (s := s) (w := w) (by simp [hw]) (by simp [hw])
  have hidle := h.idle w
  rw [hw] at hidle
  have htok : s.nextFiber ∉ s.tokens := by
    rw [h.token_iff, hfresh]
    simp
  refine h.move rfl (fun m hm => s.setFiber_of_ne ⟨.running, false⟩ (task_ne hm))
    (fun v => s.setFiber_of_ne ⟨.running, false⟩ (idle_ne_task v s.nextFiber)) (fun _ _ => Iff.rfl)
    (iff_of_false htok (by simp)) h.nodup ⟨Nat.le_succ _, Nat.lt_succ_self _⟩ ?_
    (fun m hm => absurd hm (hnot _)) (Function.update_self _ _ _) (by simp) (by simp) ?_ (by simp)
    hidle
  · intro v hv
    rw [hfresh] at hv
    cases hv
  · intro m b hb
    cases hb
    exact ⟨rfl, congrArg Fiber.state (s.setFiber_self _ _)⟩

theorem resumeIdle (h : Tracks s phase) {w : Nat} (hw : s.workers w = .noTask) :
    (s.fibers (.idle w)).state ≠ .running ∧ (s.fibers (.idle w)).saved = true ∧
      Tracks ((s.setFiber (.idle w) ⟨.running, false⟩).setWorker w (.running (.idle w) false))
        phase := by
  have hnot := not_executes (s := s) (w := w) (by simp [hw]) (by simp [hw])
  have hidle := h.idle w
  rw [hw] at hidle
  refine ⟨hidle.1, hidle.2, h.stay rfl
    (fun n => s.setFiber_of_ne ⟨.running, false⟩ (task_ne_idle n w))
    (fun v hv => s.setFiber_of_ne ⟨.running, false⟩ (idle_ne hv)) (List.Perm.refl _) rfl
    (fun n => hnot _) rfl (by simp) (by simp) ?_⟩
  exact congrArg Fiber.state (s.setFiber_self _ _)

theorem leave (h : Tracks s phase) {w : Nat} (hw : s.workers w = .noTask) :
    Tracks (s.setWorker w .left) phase := by
  have hnot := not_executes (s := s) (w := w) (by simp [hw]) (by simp [hw])
  have hidle := h.idle w
  rw [hw] at hidle
  exact h.stay rfl (fun _ => rfl) (fun _ _ => rfl) (List.Perm.refl _) rfl (fun n => hnot _) trivial
    (by simp) (by simp) hidle

/-- The fiber that a worker executes, and its phase before it registers itself. -/
theorem executes_unique {w n : Nat} {b : Bool} (hw : s.workers w = .running (.task n) b) {m : Nat}
    (hm : Executes s w (.task m)) : m = n := by
  rcases hm with ⟨b', hb⟩ | hy
  · rw [hw] at hb
    cases hb
    rfl
  · rw [hw] at hy
    cases hy

theorem register (h : Tracks s phase) {w n : Nat} (hw : s.workers w = .running (.task n) false)
    {q : List (SchedulerTask κ)} {ws : List Nat}
    (htokens : (queueFibers q ++ ws).Perm (n :: s.tokens)) :
    Tracks ({ s with queue := q, waiting := ws }.setWorker w (.running (.task n) true))
      (Function.update phase n (.leaving w)) := by
  have hact : phase n = .active w := by
    have := h.worker w
    rwa [hw] at this
  have hidle := h.idle w
  rw [hw] at hidle
  -- a running fiber is registered nowhere
  have htok : n ∉ s.tokens := by
    rw [h.token_iff, hact]
    simp
  have hnodup : (n :: s.tokens).Nodup := List.nodup_cons.mpr ⟨htok, h.nodup⟩
  refine h.move rfl (fun _ _ => rfl) (fun _ => rfl) ?_ ?_ (htokens.nodup_iff.mpr hnodup)
    ⟨Nat.le_refl _, h.lt_next (by rw [hact]; simp)⟩ ?_ (fun m hm => executes_unique hw hm)
    (Function.update_self _ _ _) ?_ (by simp) ?_ (by simp) hidle
  · intro m hm
    refine htokens.mem_iff.trans ?_
    rw [List.mem_cons, or_iff_right hm]
  · exact iff_of_true (htokens.mem_iff.mpr List.mem_cons_self) (.inr ⟨w, rfl⟩)
  · intro v hv
    rw [hact] at hv
    exact (Option.some.inj hv).symm
  · intro v hv
    cases hv
    exact ⟨rfl, .inl rfl⟩
  · intro m b hb
    cases hb
    exact ⟨rfl, h.running w n false hw⟩

theorem yieldTask (h : Tracks s phase) {w n : Nat} (hw : s.workers w = .running (.task n) true) :
    Tracks ((s.setFiber (.task n) { s.fibers (.task n) with state := .ready }).setWorker w
      (.yielding (.task n))) phase := by
  have hleave : phase n = .leaving w := by
    have := h.worker w
    rwa [hw] at this
  have hidle := h.idle w
  rw [hw] at hidle
  -- its phase stays
  have hself : Function.update phase n (.leaving w) = phase := by
    rw [← hleave, Function.update_eq_self]
  rw [← hself]
  refine h.move rfl
    (fun m hm => s.setFiber_of_ne { s.fibers (.task n) with state := .ready } (task_ne hm))
    (fun v => s.setFiber_of_ne { s.fibers (.task n) with state := .ready } (idle_ne_task v n))
    (fun _ _ => Iff.rfl)
    (iff_of_true ((h.token_iff n).mpr (.inr ⟨w, hleave⟩)) (.inr ⟨w, rfl⟩)) h.nodup
    ⟨Nat.le_refl _, h.lt_next (by rw [hleave]; simp)⟩ ?_ (fun m hm => executes_unique hw hm)
    (.inl (Function.update_self _ _ _)) ?_ (by simp) (by simp) ?_ hidle
  · intro v hv
    rw [hleave] at hv
    exact (Option.some.inj hv).symm
  · intro v hv
    cases hv
    exact ⟨rfl, .inr rfl⟩
  · intro m hm
    cases hm
    exact ⟨rfl, fun _ => congrArg Fiber.state (s.setFiber_self _ _)⟩

theorem finishTask (h : Tracks s phase) {w n : Nat} (hw : s.workers w = .running (.task n) false) :
    Tracks ((s.setFiber (.task n) { s.fibers (.task n) with state := .term }).setWorker w
      (.yielding (.task n))) (Function.update phase n (.ending w)) := by
  have hact : phase n = .active w := by
    have := h.worker w
    rwa [hw] at this
  have hidle := h.idle w
  rw [hw] at hidle
  have htok : n ∉ s.tokens := by
    rw [h.token_iff, hact]
    simp
  refine h.move rfl
    (fun m hm => s.setFiber_of_ne { s.fibers (.task n) with state := .term } (task_ne hm))
    (fun v => s.setFiber_of_ne { s.fibers (.task n) with state := .term } (idle_ne_task v n))
    (fun _ _ => Iff.rfl)
    (iff_of_false htok (by simp)) h.nodup ⟨Nat.le_refl _, h.lt_next (by rw [hact]; simp)⟩ ?_
    (fun m hm => executes_unique hw hm) (.inr (Function.update_self _ _ _)) (by simp) (by simp)
    (by simp) ?_ hidle
  · intro v hv
    rw [hact] at hv
    exact (Option.some.inj hv).symm
  · intro m hm
    cases hm
    exact ⟨rfl, by simp⟩

theorem yieldIdle (h : Tracks s phase) {w v : Nat} {b : Bool}
    (hw : s.workers w = .running (.idle v) b) {x : Fiber} (hx : x.state ≠ .running) :
    Tracks ((s.setFiber (.idle v) x).setWorker w (.yielding (.idle v))) phase := by
  have hv : v = w := by
    have := h.worker w
    rwa [hw] at this
  subst hv
  refine h.stay rfl (fun n => s.setFiber_of_ne x (task_ne_idle n v))
    (fun u hu => s.setFiber_of_ne x (idle_ne hu)) (List.Perm.refl _) rfl ?_ rfl (by simp) (by simp)
    ?_
  · rintro n (⟨b', hb⟩ | hy)
    · rw [hw] at hb
      cases hb
    · rw [hw] at hy
      cases hy
  · change ((s.setFiber (.idle v) x).fibers (.idle v)).state ≠ .running
    rw [s.setFiber_self]
    exact hx

/-- The `swapcontext` of `yield`: a registered fiber is parked, one that has ended is gone. -/
theorem saveTask (h : Tracks s phase) {w n : Nat} (hw : s.workers w = .yielding (.task n)) :
    ∃ phase', Tracks ((s.setFiber (.task n) { s.fibers (.task n) with saved := true }).setWorker w
      (.returned (.task n))) phase' := by
  have hidle := h.idle w
  rw [hw] at hidle
  have huniq : ∀ m, Executes s w (.task m) → m = n := by
    rintro m (⟨b, hb⟩ | hy)
    · rw [hw] at hb
      cases hb
    · rw [hw] at hy
      cases hy
      rfl
  have hpc := h.worker w
  rw [hw] at hpc
  -- the fiber is on this worker and on no other
  have hown : ∀ v, (phase n).owner = some v → v = w := by
    intro v hv
    rcases hpc with hpc | hpc
    · rw [hpc] at hv
      exact (Option.some.inj hv).symm
    · rw [hpc] at hv
      exact (Option.some.inj hv).symm
  have hlt : n < s.nextFiber := by
    refine h.lt_next fun hf => ?_
    rcases hpc with hpc | hpc
    · rw [hpc] at hf
      cases hf
    · rw [hpc] at hf
      cases hf
  rcases hpc with hleave | hend
  · -- it has registered itself somewhere: whoever finds it there may resume it
    have hstate := h.yielded w n hw hleave
    refine ⟨Function.update phase n .parked, h.move rfl
      (fun m hm => s.setFiber_of_ne { s.fibers (.task n) with saved := true } (task_ne hm))
      (fun v => s.setFiber_of_ne { s.fibers (.task n) with saved := true } (idle_ne_task v n))
      (fun _ _ => Iff.rfl) (iff_of_true ((h.token_iff n).mpr (.inr ⟨w, hleave⟩)) (.inl rfl))
      h.nodup ⟨Nat.le_refl _, hlt⟩ hown huniq trivial (by simp) ?_ (by simp) (by simp) hidle⟩
    intro _
    refine (s.setFiber_self (.task n) _).trans ?_
    rw [hstate]
    rfl
  · -- it has ended, and nobody can find it
    have htok : n ∉ s.tokens := by
      rw [h.token_iff, hend]
      simp
    exact ⟨Function.update phase n .dead, h.move rfl
      (fun m hm => s.setFiber_of_ne { s.fibers (.task n) with saved := true } (task_ne hm))
      (fun v => s.setFiber_of_ne { s.fibers (.task n) with saved := true } (idle_ne_task v n))
      (fun _ _ => Iff.rfl) (iff_of_false htok (by simp)) h.nodup ⟨Nat.le_refl _, hlt⟩ hown huniq
      trivial (by simp) (by simp) (by simp) (by simp) hidle⟩

theorem saveIdle (h : Tracks s phase) {w v : Nat} (hw : s.workers w = .yielding (.idle v)) :
    Tracks ((s.setFiber (.idle v) { s.fibers (.idle v) with saved := true }).setWorker w
      (.returned (.idle v))) phase := by
  have hv : v = w := by
    have := h.worker w
    rwa [hw] at this
  subst hv
  have hidle := h.idle v
  rw [hw] at hidle
  refine h.stay rfl
    (fun n => s.setFiber_of_ne { s.fibers (.idle v) with saved := true } (task_ne_idle n v))
    (fun u hu => s.setFiber_of_ne { s.fibers (.idle v) with saved := true } (idle_ne hu))
    (List.Perm.refl _) rfl ?_ trivial (by simp) (by simp) ?_
  · rintro n (⟨b', hb⟩ | hy)
    · rw [hw] at hb
      cases hb
    · rw [hw] at hy
      cases hy
  · change ((s.setFiber (.idle v) _).fibers (.idle v)).state ≠ .running ∧
      ((s.setFiber (.idle v) _).fibers (.idle v)).saved = true
    rw [s.setFiber_self]
    exact ⟨hidle, rfl⟩

theorem done (h : Tracks s phase) {w : Nat} {f : FiberId} (hw : s.workers w = .returned f)
    {s' : Scheduler κ} (hworkers : s'.workers = Function.update s.workers w .top)
    (hfibers : s'.fibers = s.fibers) (htokens : s'.tokens = s.tokens)
    (hnext : s'.nextFiber = s.nextFiber) : Tracks s' phase := by
  have hnot := not_executes (s := s) (w := w) (by simp [hw]) (by simp [hw])
  have hidle := h.idle w
  rw [hw] at hidle
  refine h.stay hworkers (fun n => by rw [hfibers]) (fun v _ => by rw [hfibers])
    (by rw [htokens]) hnext (fun n => hnot _) trivial (by simp) (by simp) ?_
  rw [hfibers]
  exact hidle

end Tracks

/-! ## Runs -/

/-- The condition on a step: the task that it takes is a callback, or a fiber that no worker is
executing. -/
def TakesParked (s : Scheduler κ) (op : Op κ) : Prop :=
  ∀ w n thread rest, op = .dequeue w → take w s.queue = some (⟨.fiber n, thread⟩, rest) →
    ∀ v, ¬ Executes s v (.task n)

/-- The fiber that the step resumes, if it is a `resume`. -/
def resumed (s : Scheduler κ) : Op κ → Option FiberId
  | .resume w => match s.workers w with
    | .got (.fiber n) => some (.task n)
    | .noTask => if (s.fibers (.idle w)).state = .term then none else some (.idle w)
    | _ => none
  | _ => none

/-- The step resumes only a fiber that is `READY` and whose context is saved, fails no assertion,
and leaves no fiber with two workers. -/
def ResumesSaved (s : Scheduler κ) (op : Op κ) : Prop :=
  (∀ f, s.resumed op = some f → s.fibers f = ⟨.ready, true⟩) ∧
    (s.valid op = true → ∃ s', exec op s = .ok () s' ∧ Exclusive s')

theorem exec_tracks {s : Scheduler κ} {phase : Nat → Phase} (h : Tracks s phase) {op : Op κ}
    (hv : s.valid op = true) (hc : TakesParked s op) :
    ∃ s' phase', exec op s = .ok () s' ∧ Tracks s' phase' := by
  cases op with
  | pushCb f thread => exact ⟨_, phase, rfl, h.pushCb f thread⟩
  | pushFiber thread => exact ⟨_, _, rfl, h.pushFiber thread⟩
  | trigger n =>
    have hn : n ∈ s.waiting := by simpa [valid] using hv
    exact ⟨_, phase, rfl, h.trigger hn⟩
  | dequeue w =>
    have hw : s.workers w = .top := by
      cases hw : s.workers w <;> simp [valid, hw] at hv ⊢
    exact h.dequeue hw fun n thread rest ht => hc w n thread rest rfl ht
  | resume w =>
    simp only [exec, Scheduler.resume]
    cases hw : s.workers w with
    | got b =>
      cases b with
      | fiber n =>
        -- the fiber was taken off the queue, so it is parked and its context is saved
        obtain ⟨hready, htracks⟩ := h.resumeTaken hw
        exact ⟨_, _, by simp [resumeFiber, hready, Fiber.new], htracks⟩
      | cb f =>
        -- a callback runs in a fiber that is made for it
        refine ⟨_, _, ?_, h.resumeNew hw⟩
        simp [resumeFiber, setFiber, setWorker, Fiber.new]
    | noTask =>
      -- no task: the idle fiber of this worker, which nobody else resumes
      obtain ⟨hstate, -, htracks⟩ := h.resumeIdle hw
      by_cases hterm : (s.fibers (.idle w)).state = .term
      · exact ⟨_, phase, by simp [hterm], h.leave hw⟩
      · have hready : (s.fibers (.idle w)).state = .ready := by
          cases hs : (s.fibers (.idle w)).state with
          | ready => rfl
          | running => exact absurd hs hstate
          | term => exact absurd hs hterm
        exact ⟨_, phase, by simp [resumeFiber, hready], htracks⟩
    | top => simp [valid, hw] at hv
    | running f b => simp [valid, hw] at hv
    | yielding f => simp [valid, hw] at hv
    | returned f => simp [valid, hw] at hv
    | left => simp [valid, hw] at hv
  | register w r =>
    obtain ⟨n, hw⟩ : ∃ n, s.workers w = .running (.task n) false := by
      simp only [valid] at hv
      split at hv
      · exact ⟨_, ‹_›⟩
      · cases hv
    cases r with
    | queue thread =>
      -- the fiber hands itself to the queue while it is still running
      refine ⟨_, _, ?_, h.register hw (s.tokens_push { body := .fiber n, thread })⟩
      simp [exec, hw, push]
    | wait =>
      -- it waits for an event or a timer, which is a token outside the queue
      have hperm : (queueFibers s.queue ++ n :: s.waiting).Perm (n :: s.tokens) := List.perm_middle
      refine ⟨_, _, ?_, h.register hw hperm⟩
      simp [exec, hw]
  | yield w =>
    simp only [valid] at hv
    split at hv
    · rename_i n b hw
      subst hv
      have hstate := h.running w n true hw
      exact ⟨_, phase, by simp [exec, hw, yieldFiber, hstate], h.yieldTask hw⟩
    · rename_i v b hw
      have hidle := h.idle w
      have hvw := h.worker w
      rw [hw] at hidle hvw
      -- a worker runs only its own idle fiber
      have hvw' : v = w := hvw
      subst hvw'
      have hstate : (s.fibers (.idle v)).state = .running := hidle
      refine ⟨_, phase, ?_, h.yieldIdle hw (x := { s.fibers (.idle v) with state := .ready }) ?_⟩
      · simp [exec, hw, yieldFiber, hstate]
      · simp
    · cases hv
  | finish w =>
    simp only [valid] at hv
    split at hv
    · rename_i f b hw
      have hb : b = false := by simpa using hv
      subst hb
      cases f with
      | task n =>
        refine ⟨_, _, ?_, h.finishTask hw⟩
        simp [exec, hw, yieldFiber, setFiber_self]
      | idle v =>
        refine ⟨_, phase, ?_, h.yieldIdle hw (x := { s.fibers (.idle v) with state := .term }) ?_⟩
        · simp [exec, hw, yieldFiber, setFiber_self]
        · simp
    · cases hv
  | save w =>
    simp only [valid] at hv
    split at hv
    · rename_i f hw
      cases f with
      | task n =>
        obtain ⟨phase', htracks⟩ := h.saveTask hw
        exact ⟨_, phase', by simp [exec, hw], htracks⟩
      | idle v => exact ⟨_, phase, by simp [exec, hw], h.saveIdle hw⟩
    · cases hv
  | done w =>
    simp only [valid] at hv
    split at hv
    · rename_i f hw
      cases f with
      | task n =>
        refine ⟨{ s with active := s.active - 1 }.setWorker w .top, phase, ?_,
          h.done hw rfl rfl rfl rfl⟩
        simp [exec, hw]
      | idle v =>
        refine ⟨s.setWorker w .top, phase, ?_, h.done hw rfl rfl rfl rfl⟩
        simp [exec, hw]
    · cases hv

theorem step_tracks {s s' : Scheduler κ} {op : Op κ} (h : ∃ phase, Tracks s phase)
    (hc : TakesParked s op) (hs : step s op = some s') : ∃ phase, Tracks s' phase := by
  obtain ⟨phase, htracks⟩ := h
  unfold step at hs
  split at hs
  · rename_i hv
    obtain ⟨s₁, phase', hrun, htracks'⟩ := exec_tracks htracks hv hc
    rw [hrun] at hs
    cases hs
    exact ⟨phase', htracks'⟩
  · cases hs

theorem resumed_ready {s : Scheduler κ} {phase : Nat → Phase} (h : Tracks s phase) {op : Op κ}
    {f : FiberId} (hf : s.resumed op = some f) : s.fibers f = ⟨.ready, true⟩ := by
  cases op with
  | resume w =>
    simp only [resumed] at hf
    split at hf
    · rename_i n hw
      cases hf
      exact (h.resumeTaken hw).1
    · rename_i hw
      split at hf
      · cases hf
      · rename_i hterm
        cases hf
        obtain ⟨hstate, hsaved, -⟩ := h.resumeIdle hw
        cases hx : s.fibers (.idle w) with
        | mk state saved =>
          rw [hx] at hstate hsaved hterm
          cases state with
          | ready =>
            cases hsaved
            rfl
          | running => exact absurd rfl hstate
          | term => exact absurd rfl hterm
    · cases hf
  | _ => cases hf

/-- **Fibers are resumed whole.**  In every interleaving of any number of workers in which each
task taken from the queue is a callback or a fiber that no worker is executing at that moment,
`Fiber::resume` meets only fibers that are `READY` with their context saved, no assertion of
`resume` or `yield` fails, and no fiber is ever executed by two workers. -/
theorem resumes_saved (ops : List (Op κ)) (h : AllSteps step TakesParked init ops) :
    AllSteps step ResumesSaved (init : Scheduler κ) ops := by
  refine AllSteps.imp (P := fun s => ∃ phase, Tracks s phase)
    (fun s op s' hs hc hstep => step_tracks hs hc hstep) ?_ ops init ⟨_, init_tracks⟩ h
  rintro s op ⟨phase, htracks⟩ hc
  refine ⟨fun f hf => resumed_ready htracks hf, ?_⟩
  intro hv
  obtain ⟨s', phase', hrun, htracks'⟩ := exec_tracks htracks hv hc
  exact ⟨s', hrun, htracks'.exclusive⟩

/-- A fiber that registers itself, yields and is then taken by another worker. -/
def handOver : List (Op Unit) :=
  [.pushFiber none, .dequeue 0, .resume 0, .register 0 (.queue none), .yield 0, .save 0,
    .dequeue 1, .resume 1]

theorem resumes_saved_handOver : AllSteps step ResumesSaved init handOver := by
  refine resumes_saved handOver ?_
  -- only the two critical sections take a task, and no worker executes anything at either
  have hother : ∀ (s : Scheduler Unit) (op : Op Unit), (∀ w, op ≠ .dequeue w) →
      TakesParked s op := by
    intro s op hne w n thread rest hop
    exact absurd hop (hne w)
  have hquiet : ∀ (s : Scheduler Unit) (op : Op Unit),
      (∀ v f b, s.workers v ≠ .running f b ∧ s.workers v ≠ .yielding f) → TakesParked s op := by
    rintro s op hno w n thread rest - - v (⟨b, hb⟩ | hy)
    · exact (hno v (.task n) b).1 hb
    · exact (hno v (.task n) true).2 hy
  refine ⟨hother _ _ (by simp), fun s₁ h₁ => ?_⟩
  cases h₁
  refine ⟨hquiet _ _ (by simp [init, push, setFiber]), fun s₂ h₂ => ?_⟩
  cases h₂
  refine ⟨hother _ _ (by simp), fun s₃ h₃ => ?_⟩
  cases h₃
  refine ⟨hother _ _ (by simp), fun s₄ h₄ => ?_⟩
  cases h₄
  refine ⟨hother _ _ (by simp), fun s₅ h₅ => ?_⟩
  cases h₅
  refine ⟨hother _ _ (by simp), fun s₆ h₆ => ?_⟩
  cases h₆
  refine ⟨hquiet _ _ ?_, fun s₇ h₇ => ?_⟩
  · intro v f b
    by_cases hv : v = 0
    · subst hv
      exact ⟨nofun, nofun⟩
    · simp [setWorker, setFiber, push, init, take, Function.update_of_ne hv]
  cases h₇
  exact ⟨hother _ _ (by simp), fun _ _ => trivial⟩

/-- Between the fiber's registration and its `yield` the other worker takes it and resumes it while
it is `RUNNING`, and the assertion of `resume` fails.  Between the change of state in `yield` and
its `swapcontext` the assertion holds, but the context is not saved and both workers execute the
fiber. -/
theorem resume_running_fiber :
    (∃ s : Scheduler Unit,
      runFrom step init [.pushFiber none, .dequeue 0, .resume 0, .register 0 (.queue none),
        .dequeue 1] = some s ∧
      s.valid (.resume 1) = true ∧ s.resumed (.resume 1) = some (.task 0) ∧
      s.workers 0 = .running (.task 0) true ∧ (s.fibers (.task 0)).state = .running ∧
      exec (.resume 1) s = .fault .resumeAssert) ∧
    ∃ s : Scheduler Unit,
      runFrom step init [.pushFiber none, .dequeue 0, .resume 0, .register 0 (.queue none),
        .yield 0, .dequeue 1, .resume 1] = some s ∧
      s.workers 0 = .yielding (.task 0) ∧ s.workers 1 = .running (.task 0) false :=
  ⟨⟨_, rfl, rfl, rfl, rfl, rfl, rfl⟩, _, rfl, rfl, rfl⟩

end Luwu.Scheduler
