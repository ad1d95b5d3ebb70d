import Mathlib.Data.Finset.Card
import Mathlib.Data.List.InsertIdx
import Mathlib.Data.List.Perm.Basic
import Luwu.Scheduler.Exclusion

/-!
# The task queue

Whoever wants something executed appends a task to `m_fibers`; every worker takes tasks out of the
middle of it, the first that is not pinned to another thread.  The record numbers the tasks in the
order in which they were pushed, and says which of them are queued and which thread took the
others.
-/

namespace Luwu.Scheduler

open Lib

variable {κ : Type}

/-! ## Steps -/

/-- `schedulerNoLock (f, thread)`; an empty function or a null fiber is no task. -/
def schedulerNoLock (s : Scheduler κ) (f : Option (Body κ)) (thread : Option Nat) : Scheduler κ :=
  match f with
  | none => s
  | some body => s.push { body, thread }

/-- A call of `scheduler (f, thread)` by any thread, or a step of the workers and the fibers. -/
inductive Act (κ : Type) where
  | scheduler (f : Option (Body κ)) (thread : Option Nat)
  | op (o : Op κ)

def Act.exec : Act κ → M κ Unit
  | .scheduler f thread => Prog.modify fun s => s.schedulerNoLock f thread
  | .op o => Scheduler.exec o

/-- A worker locks the mutex at the top of its loop.  Where a worker is not at the place of one of
the other steps, that step has no effect. -/
def enabled (threads : Finset Nat) (s : Scheduler κ) : Act κ → Bool
  | .op (.dequeue w) => match s.workers w with
    | .top => decide (w ∈ threads)
    | _ => false
  | _ => true

/-- A step with the worker threads `threads`. -/
def actStep (threads : Finset Nat) (s : Scheduler κ) (a : Act κ) : Option (Scheduler κ) :=
  if s.enabled threads a then (a.exec s).state? else none

/-- The worker has a task that it has not finished. -/
def Pc.busy : Pc κ → Bool
  | .got _ => true
  | .running (.task _) _ => true
  | .yielding (.task _) => true
  | .returned (.task _) => true
  | _ => false

/-- The scan of the thread `w` does not skip the task. -/
def eligible (w : Nat) (t : SchedulerTask κ) : Bool := decide (t.thread = none ∨ t.thread = some w)

/-- The scan takes the first task that it does not skip. -/
theorem take_eq (w : Nat) (q : List (SchedulerTask κ)) :
    take w q = (q.findIdx? (eligible w)).bind fun k => q[k]?.map fun t => (t, q.eraseIdx k) := by
  induction q with
  | nil => rfl
  | cons t q ih =>
    rw [take, List.findIdx?_cons]
    by_cases he : t.thread = none ∨ t.thread = some w
    · have hel : eligible w t = true := decide_eq_true he
      rw [if_neg (by tauto), hel]
      rfl
    · have hel : eligible w t = false := decide_eq_false he
      rw [if_pos (by tauto), hel, ih]
      cases hk : q.findIdx? (eligible w) with
      | none => rfl
      | some k =>
        cases ht : q[k]? with
        | none => simp [ht]
        | some t' => simp [ht]

theorem take_some {w : Nat} {q rest : List (SchedulerTask κ)} {t : SchedulerTask κ}
    (h : take w q = some (t, rest)) :
    ∃ k, q.findIdx? (eligible w) = some k ∧ q[k]? = some t ∧ rest = q.eraseIdx k := by
  rw [take_eq] at h
  obtain ⟨k, hk, hmap⟩ := Option.bind_eq_some_iff.mp h
  obtain ⟨t', ht', heq⟩ := Option.map_eq_some_iff.mp hmap
  cases heq
  exact ⟨k, hk, ht', rfl⟩

theorem take_none {w : Nat} {q : List (SchedulerTask κ)} (h : take w q = none) :
    q.findIdx? (eligible w) = none := by
  rw [take_eq] at h
  cases hk : q.findIdx? (eligible w) with
  | none => rfl
  | some k =>
    obtain ⟨hlt, -⟩ := List.findIdx?_eq_some_iff_getElem.mp hk
    rw [hk, Option.bind_some, List.getElem?_eq_getElem hlt] at h
    cases h

/-! ## What a step does -/

/-- The effect of a step on the queue, on who is busy and on the counter. -/
inductive Effect (s s' : Scheduler κ) (a : Act κ) : Prop where
  /-- Nothing is queued, taken or finished. -/
  | keeps (ha : ∀ w, a ≠ .op (.dequeue w)) (hq : s'.queue = s.queue) (hc : s'.active = s.active)
      (hb : ∀ w, (s'.workers w).busy = (s.workers w).busy)
  | pushes (ha : ∀ w, a ≠ .op (.dequeue w)) (t : SchedulerTask κ) (hq : s'.queue = s.queue ++ [t])
      (hc : s'.active = s.active) (hb : ∀ w, (s'.workers w).busy = (s.workers w).busy)
  /-- The worker `w` takes a task. -/
  | takes {w : Nat} (ha : a = .op (.dequeue w)) (t : SchedulerTask κ)
      (rest : List (SchedulerTask κ))
      (ht : take w s.queue = some (t, rest)) (hq : s'.queue = rest) (hc : s'.active = s.active + 1)
      (hw : s'.workers = Function.update s.workers w (.got t.body))
      (hidle : (s.workers w).busy = false)
  /-- It finds none. -/
  | misses {w : Nat} (ha : a = .op (.dequeue w)) (ht : take w s.queue = none)
      (hq : s'.queue = s.queue) (hc : s'.active = s.active)
      (hw : s'.workers = Function.update s.workers w .noTask) (hidle : (s.workers w).busy = false)
  /-- The worker `w` has finished its task. -/
  | finishes (ha : ∀ w, a ≠ .op (.dequeue w)) {w : Nat} (hq : s'.queue = s.queue)
      (hc : s'.active = s.active - 1)
      (hw : s'.workers = Function.update s.workers w .top) (hbusy : (s.workers w).busy = true)

theorem busy_update {s : Scheduler κ} {w : Nat} {pc : Pc κ} (h : pc.busy = (s.workers w).busy)
    (v : Nat) : (Function.update s.workers w pc v).busy = (s.workers v).busy := by
  by_cases hv : v = w
  · subst hv
    rw [Function.update_self, h]
  · rw [Function.update_of_ne hv]

/-- Resuming a fiber: the worker is as busy as before when it is the fiber of a task just if the
worker has a task. -/
theorem resumeFiber_effect {s s' s₀ : Scheduler κ} {a : Act κ} {w : Nat} {f : FiberId}
    (ha : ∀ w, a ≠ .op (.dequeue w)) (h : (resumeFiber w f s).state? = some s')
    (hq : s.queue = s₀.queue) (hc : s.active = s₀.active) (hws : s.workers = s₀.workers)
    (hf : (Pc.running f false : Pc κ).busy = (s₀.workers w).busy) : Effect s₀ s' a := by
  unfold resumeFiber at h
  split at h
  · cases h
  · cases h
    refine .keeps ha hq hc ?_
    intro v
    change (Function.update s.workers w (Pc.running f false) v).busy = _
    rw [hws]
    exact busy_update hf v

theorem yieldFiber_effect {s s' s₀ : Scheduler κ} {a : Act κ} {w : Nat} {f : FiberId}
    (ha : ∀ w, a ≠ .op (.dequeue w)) (h : (yieldFiber w f s).state? = some s')
    (hq : s.queue = s₀.queue) (hc : s.active = s₀.active) (hws : s.workers = s₀.workers)
    (hf : (Pc.yielding f : Pc κ).busy = (s₀.workers w).busy) : Effect s₀ s' a := by
  have hbusy (v : Nat) : (Function.update s.workers w (Pc.yielding f) v).busy =
      (s₀.workers v).busy := by
    rw [hws]
    exact busy_update hf v
  unfold yieldFiber at h
  split at h
  · cases h
  · cases h
    exact .keeps ha hq hc hbusy
  · cases h
    exact .keeps ha hq hc hbusy

theorem exec_effect {s s' : Scheduler κ} {o : Op κ} (ho : ∀ w, o ≠ .dequeue w)
    (h : (exec o s).state? = some s') : Effect s s' (.op o) := by
  have ha (w : Nat) : Act.op o ≠ .op (.dequeue w) := fun he => ho w (Act.op.inj he)
  cases o with
  | pushCb f thread =>
    cases h
    exact .pushes ha _ rfl rfl fun _ => rfl
  | pushFiber thread =>
    cases h
    exact .pushes ha _ rfl rfl fun _ => rfl
  | trigger n =>
    cases h
    exact .pushes ha _ rfl rfl fun _ => rfl
  | dequeue w => exact absurd rfl (ho w)
  | resume w =>
    -- a task is resumed: the queue is left alone, and the worker stays busy
    simp only [exec, resume] at h
    split at h
    · next n hpc => exact resumeFiber_effect ha h rfl rfl rfl (by rw [hpc]; rfl)
    · next f hpc => exact resumeFiber_effect ha h rfl rfl rfl (by rw [hpc]; rfl)
    · next hpc =>
      split at h
      · cases h
        exact .keeps ha rfl rfl (busy_update (s := s) (by rw [hpc]; rfl))
      · exact resumeFiber_effect ha h rfl rfl rfl (by rw [hpc]; rfl)
    · cases h
      exact .keeps ha rfl rfl fun _ => rfl
  | register w r =>
    simp only [exec, Prog.modify_apply, Outcome.state?_ok, Option.some.injEq] at h
    split at h
    · next n b hpc =>
      cases r with
      | queue thread =>
        subst h
        -- a fiber that registers itself again is a new task at the end of the queue
        exact .pushes ha _ rfl rfl (busy_update (s := s) (by rw [hpc]; rfl))
      | wait =>
        subst h
        exact .keeps ha rfl rfl (busy_update (s := s) (by rw [hpc]; rfl))
    · subst h
      exact .keeps ha rfl rfl fun _ => rfl
  | yield w =>
    simp only [exec] at h
    split at h
    · next f b hpc =>
      exact yieldFiber_effect ha h rfl rfl rfl (by rw [hpc]; cases f <;> rfl)
    · cases h
      exact .keeps ha rfl rfl fun _ => rfl
  | finish w =>
    simp only [exec] at h
    split at h
    · next f b hpc =>
      exact yieldFiber_effect ha h rfl rfl rfl (by rw [hpc]; cases f <;> rfl)
    · cases h
      exact .keeps ha rfl rfl fun _ => rfl
  | save w =>
    simp only [exec, Prog.modify_apply, Outcome.state?_ok, Option.some.injEq] at h
    split at h
    · next f hpc =>
      subst h
      exact .keeps ha rfl rfl (busy_update (s := s) (by rw [hpc]; cases f <;> rfl))
    · subst h
      exact .keeps ha rfl rfl fun _ => rfl
  | done w =>
    simp only [exec, Prog.modify_apply, Outcome.state?_ok, Option.some.injEq] at h
    split at h
    · next n hpc =>
      subst h
      -- the fiber has come back: this is where `m_activeThreadCount` goes down
      exact .finishes ha rfl rfl rfl (by rw [hpc]; rfl)
    · next n hpc =>
      subst h
      exact .keeps ha rfl rfl (busy_update (s := s) (by rw [hpc]; rfl))
    · subst h
      exact .keeps ha rfl rfl fun _ => rfl

theorem actStep_effect {threads : Finset Nat} {s s' : Scheduler κ} {a : Act κ}
    (h : actStep threads s a = some s') :
    Effect s s' a ∧ ∀ w, a = .op (.dequeue w) → w ∈ threads := by
  unfold actStep at h
  split at h
  case isFalse => cases h
  case isTrue hen =>
    have hother (ha : ∀ w, a ≠ .op (.dequeue w)) : ∀ w, a = .op (.dequeue w) → w ∈ threads :=
      fun w hw => absurd hw (ha w)
    cases a with
    | scheduler f thread =>
      have ha (w : Nat) : Act.scheduler f thread ≠ .op (.dequeue w) := fun hw => by cases hw
      refine ⟨?_, hother ha⟩
      cases f with
      | none =>
        cases h
        exact .keeps ha rfl rfl fun _ => rfl
      | some body =>
        cases h
        exact .pushes ha _ rfl rfl fun _ => rfl
    | op o =>
      by_cases ho : ∀ w, o ≠ .dequeue w
      · exact ⟨exec_effect ho h, hother fun w hw => ho w (Act.op.inj hw)⟩
      · rw [not_forall] at ho
        obtain ⟨w, hw⟩ := ho
        rw [not_not] at hw
        subst hw
        -- the worker is at the top of its loop, and one of the threads
        simp only [enabled] at hen
        split at hen
        · next htop =>
          refine ⟨?_, ?_⟩
          · simp only [Act.exec, exec, dequeue, Prog.modify_apply, Outcome.state?_ok,
              Option.some.injEq] at h
            split at h
            · next t rest ht =>
              subst h
              exact .takes rfl t rest ht rfl rfl rfl (by rw [htop]; rfl)
            · next ht =>
              subst h
              exact .misses rfl ht rfl rfl rfl (by rw [htop]; rfl)
          · intro v hv
            cases hv
            simpa using hen
        · cases hen

/-! ## The record -/

structure Record (κ : Type) where
  /-- The tasks pushed so far, in the order of their numbers. -/
  pushed : List (SchedulerTask κ) := []
  /-- The numbers of the queued tasks, as they stand in the queue. -/
  queued : List Nat := []
  /-- The numbers of the tasks taken, each with the thread that took it. -/
  taken : List (Nat × Nat) := []

/-- The record after a step from `s` to `s'`. -/
def Record.next (s s' : Scheduler κ) (a : Act κ) (r : Record κ) : Record κ :=
  match a with
  | .op (.dequeue w) =>
    match s.queue.findIdx? (eligible w) with
    | none => r
    | some k =>
      { r with queued := r.queued.eraseIdx k, taken := r.taken ++ [(r.queued.getD k 0, w)] }
  | _ =>
    let new := s'.queue.drop s.queue.length
    { r with
      pushed := r.pushed ++ new
      queued := r.queued ++ (List.range new.length).map (r.pushed.length + ·) }

/-- The record `r` fits the state `s`. -/
structure Record.Tracks (threads : Finset Nat) (s : Scheduler κ) (r : Record κ) : Prop where
  /-- The queue has the tasks that were not taken, in the order in which they were pushed. -/
  queue : s.queue.map some = r.queued.map (r.pushed[·]?)
  order : r.queued.Pairwise (· < ·)
  all : (r.queued ++ r.taken.map Prod.fst).Perm (List.range r.pushed.length)
  pinned : ∀ i w, (i, w) ∈ r.taken → ∃ t, r.pushed[i]? = some t ∧ eligible w t = true
  /-- The counter counts the workers that have a task. -/
  active : s.active = (threads.filter fun w => (s.workers w).busy = true).card
  threads : ∀ w, (s.workers w).busy = true → w ∈ threads

section

variable {threads : Finset Nat} {s s' : Scheduler κ} {r : Record κ} {a : Act κ}

theorem Record.init_tracks : Record.Tracks threads (init : Scheduler κ) {} where
  queue := rfl
  order := .nil
  all := .refl _
  pinned _ _ h := by cases h
  active := by simp [init, Pc.busy]
  threads _ h := by cases h

theorem Record.Tracks.queued_lt (h : r.Tracks threads s) {i : Nat} (hi : i ∈ r.queued) :
    i < r.pushed.length :=
  List.mem_range.mp (h.all.subset (List.mem_append_left _ hi))

/-- Where a task stands in the queue, its number stands in the record. -/
theorem Record.Tracks.getElem (h : r.Tracks threads s) {k : Nat} {t : SchedulerTask κ}
    (ht : s.queue[k]? = some t) : ∃ i, r.queued[k]? = some i ∧ r.pushed[i]? = some t := by
  have hk := congrArg (·[k]?) h.queue
  simp only [List.getElem?_map, ht, Option.map_some] at hk
  cases hi : r.queued[k]? with
  | none => simp [hi] at hk
  | some i =>
    refine ⟨i, rfl, ?_⟩
    rw [hi] at hk
    exact (Option.some.inj hk).symm

theorem busy_same (hb : ∀ w, (s'.workers w).busy = (s.workers w).busy) :
    (threads.filter fun w => (s'.workers w).busy = true) =
      threads.filter fun w => (s.workers w).busy = true := by
  simp only [hb]

theorem busy_insert {w : Nat} {pc : Pc κ} (hw : s'.workers = Function.update s.workers w pc)
    (hpc : pc.busy = true) (hmem : w ∈ threads) :
    (threads.filter fun w => (s'.workers w).busy = true) =
      insert w (threads.filter fun w => (s.workers w).busy = true) := by
  ext v
  rw [hw, Finset.mem_insert, Finset.mem_filter, Finset.mem_filter]
  by_cases hv : v = w
  · subst hv
    simp [hpc, hmem]
  · simp [hv]

theorem busy_erase {w : Nat} {pc : Pc κ} (hw : s'.workers = Function.update s.workers w pc)
    (hpc : pc.busy = false) :
    (threads.filter fun w => (s'.workers w).busy = true) =
      (threads.filter fun w => (s.workers w).busy = true).erase w := by
  ext v
  rw [hw, Finset.mem_erase, Finset.mem_filter, Finset.mem_filter]
  by_cases hv : v = w
  · subst hv
    simp [hpc]
  · simp [hv]

/-- The scan finds a task where the record has its number. -/
theorem Record.Tracks.scan (h : r.Tracks threads s) {w k : Nat}
    (hk : s.queue.findIdx? (eligible w) = some k) :
    ∃ i t, s.queue[k]? = some t ∧ r.queued[k]? = some i ∧ r.pushed[i]? = some t ∧
      eligible w t = true := by
  obtain ⟨hlt, hel, -⟩ := List.findIdx?_eq_some_iff_getElem.mp hk
  have ht : s.queue[k]? = some s.queue[k] := List.getElem?_eq_getElem hlt
  obtain ⟨i, hi, hpushed⟩ := h.getElem ht
  exact ⟨i, s.queue[k], ht, hi, hpushed, hel⟩

theorem Record.Tracks.pushes (h : r.Tracks threads s) {t : SchedulerTask κ}
    (hq : s'.queue = s.queue ++ [t]) (hc : s'.active = s.active)
    (hb : ∀ w, (s'.workers w).busy = (s.workers w).busy) :
    Record.Tracks threads s'
      { r with pushed := r.pushed ++ [t], queued := r.queued ++ [r.pushed.length] } where
  queue := by
    have hsame : r.queued.map ((r.pushed ++ [t])[·]?) = r.queued.map (r.pushed[·]?) := by
      apply List.map_congr_left
      intro i hi
      exact List.getElem?_append_left (h.queued_lt hi)
    rw [hq, List.map_append, List.map_append, hsame, h.queue]
    simp
  order := by
    apply List.pairwise_append.mpr
    refine ⟨h.order, List.pairwise_singleton _ _, ?_⟩
    intro i hi j hj
    rw [List.mem_singleton.mp hj]
    exact h.queued_lt hi
  all := by
    -- the new number goes past those of the tasks taken
    have hswap : (r.queued ++ [r.pushed.length] ++ r.taken.map Prod.fst).Perm
        (r.queued ++ r.taken.map Prod.fst ++ [r.pushed.length]) := by
      rw [List.append_assoc, List.append_assoc]
      exact List.Perm.append_left _ List.perm_append_comm
    rw [List.length_append, List.length_singleton, List.range_succ]
    exact hswap.trans (h.all.append_right _)
  pinned i w hi := by
    obtain ⟨t', ht', hel⟩ := h.pinned i w hi
    have hlt : i < r.pushed.length := (List.getElem?_eq_some_iff.mp ht').1
    exact ⟨t', (List.getElem?_append_left hlt).trans ht', hel⟩
  active := by rw [hc, h.active, busy_same hb]
  threads w hw := h.threads w (by rw [← hb w]; exact hw)

theorem Record.Tracks.takes (h : r.Tracks threads s) {w k i : Nat} {t : SchedulerTask κ}
    (hmem : w ∈ threads) (hk : r.queued[k]? = some i) (ht : r.pushed[i]? = some t)
    (hel : eligible w t = true) (hq : s'.queue = s.queue.eraseIdx k) (hc : s'.active = s.active + 1)
    (hw : s'.workers = Function.update s.workers w (.got t.body))
    (hidle : (s.workers w).busy = false) :
    Record.Tracks threads s'
      { r with queued := r.queued.eraseIdx k, taken := r.taken ++ [(i, w)] } where
  queue := by rw [hq, ← List.eraseIdx_map, ← List.eraseIdx_map, h.queue]
  order := h.order.sublist (List.eraseIdx_sublist _ _)
  all := by
    obtain ⟨hlt, hi⟩ := List.getElem?_eq_some_iff.mp hk
    -- the number goes from the queue to those taken
    have hpick : (i :: r.queued.eraseIdx k).Perm r.queued := by
      rw [← hi]
      exact List.getElem_cons_eraseIdx_perm hlt
    rw [List.map_append, List.map_singleton, ← List.append_assoc]
    exact (List.perm_append_singleton _ _).trans ((hpick.append_right _).trans h.all)
  pinned j v hj := by
    rcases List.mem_append.mp hj with hold | hnew
    · exact h.pinned j v hold
    · cases List.mem_singleton.mp hnew
      exact ⟨t, ht, hel⟩
  active := by
    rw [hc, h.active, busy_insert hw rfl hmem, Finset.card_insert_of_notMem (by simp [hidle])]
    rfl
  threads v hv := by
    by_cases hvw : v = w
    · rw [hvw]
      exact hmem
    · apply h.threads v
      rwa [hw, Function.update_of_ne hvw] at hv

theorem Record.Tracks.same (h : r.Tracks threads s) (hq : s'.queue = s.queue)
    (hactive : s'.active = (threads.filter fun w => (s'.workers w).busy = true).card)
    (hthreads : ∀ w, (s'.workers w).busy = true → (s.workers w).busy = true) :
    r.Tracks threads s' where
  queue := by rw [hq, h.queue]
  order := h.order
  all := h.all
  pinned := h.pinned
  active := hactive
  threads w hw := h.threads w (hthreads w hw)

theorem Record.Tracks.finishes (h : r.Tracks threads s) {w : Nat} (hq : s'.queue = s.queue)
    (hc : s'.active = s.active - 1) (hw : s'.workers = Function.update s.workers w .top)
    (hbusy : (s.workers w).busy = true) : r.Tracks threads s' := by
  have hwmem : w ∈ threads.filter fun w => (s.workers w).busy = true := by
    rw [Finset.mem_filter]
    exact ⟨h.threads w hbusy, hbusy⟩
  apply h.same hq
  · rw [hc, h.active, busy_erase hw rfl, Finset.card_erase_of_mem hwmem]
    have hpos : 0 < (threads.filter fun w => (s.workers w).busy = true).card :=
      Finset.card_pos.mpr ⟨w, hwmem⟩
    omega
  · intro v hv
    rw [hw] at hv
    by_cases hvw : v = w
    · rw [hvw, Function.update_self] at hv
      cases hv
    · rwa [Function.update_of_ne hvw] at hv

theorem Record.next_of_ne (ha : ∀ w, a ≠ .op (.dequeue w)) :
    r.next s s' a =
      { r with
        pushed := r.pushed ++ s'.queue.drop s.queue.length
        queued := r.queued ++
          (List.range (s'.queue.drop s.queue.length).length).map (r.pushed.length + ·) } := by
  unfold Record.next
  split
  · next w => exact absurd rfl (ha w)
  · rfl

theorem Record.next_same (ha : ∀ w, a ≠ .op (.dequeue w)) (hq : s'.queue = s.queue) :
    r.next s s' a = r := by
  rw [Record.next_of_ne ha, hq, List.drop_length]
  simp

theorem Record.next_push (ha : ∀ w, a ≠ .op (.dequeue w)) {t : SchedulerTask κ}
    (hq : s'.queue = s.queue ++ [t]) :
    r.next s s' a =
      { r with pushed := r.pushed ++ [t], queued := r.queued ++ [r.pushed.length] } := by
  rw [Record.next_of_ne ha, hq, List.drop_left]
  simp

theorem Record.next_take {w k i : Nat} (hk : s.queue.findIdx? (eligible w) = some k)
    (hi : r.queued[k]? = some i) :
    r.next s s' (.op (.dequeue w)) =
      { r with queued := r.queued.eraseIdx k, taken := r.taken ++ [(i, w)] } := by
  have hget : r.queued.getD k 0 = i := by rw [List.getD_eq_getElem?_getD, hi, Option.getD_some]
  simp only [Record.next, hk, hget]

theorem Record.next_miss {w : Nat} (hk : s.queue.findIdx? (eligible w) = none) :
    r.next s s' (.op (.dequeue w)) = r := by
  rw [Record.next, hk]

theorem Record.Tracks.next (h : r.Tracks threads s) (hstep : actStep threads s a = some s') :
    (r.next s s' a).Tracks threads s' := by
  obtain ⟨heffect, hmem⟩ := actStep_effect hstep
  cases heffect with
  | keeps ha hq hc hb =>
    rw [Record.next_same ha hq]
    exact h.same hq (by rw [hc, h.active, busy_same hb]) fun w hw => by rw [← hb w]; exact hw
  | pushes ha t hq hc hb =>
    rw [Record.next_push ha hq]
    exact h.pushes hq hc hb
  | takes ha t rest ht hq hc hw hidle =>
    subst ha
    -- the scan has taken the task with the number at `k`
    obtain ⟨k, hk, hget, hrest⟩ := take_some ht
    obtain ⟨i, t', ht', hi, hpushed, hel⟩ := h.scan hk
    cases hget.symm.trans ht'
    rw [Record.next_take hk hi]
    exact h.takes (hmem _ rfl) hi hpushed hel (hq.trans hrest) hc hw hidle
  | @misses w ha ht hq hc hw hidle =>
    subst ha
    have hb (v : Nat) : (s'.workers v).busy = (s.workers v).busy := by
      rw [hw]
      exact @busy_update κ s w .noTask hidle.symm v
    rw [Record.next_miss (take_none ht)]
    exact h.same hq (by rw [hc, h.active, busy_same hb]) fun w hw => by rw [← hb w]; exact hw
  | finishes ha hq hc hw hbusy =>
    rw [Record.next_same ha hq]
    exact h.finishes hq hc hw hbusy

end

/-! ## What the record says of a run -/

/-- The record of a run that has led to `s`, and what the next step will add to it. -/
structure Record.Settles (threads : Finset Nat) (s : Scheduler κ) (r : Record κ) : Prop where
  /-- No task is taken twice, nor by two threads. -/
  taken_once : (r.taken.map Prod.fst).Nodup
  /-- No task is taken by a thread other than the one it is pinned to. -/
  pinned : ∀ i w, (i, w) ∈ r.taken →
    ∃ t, r.pushed[i]? = some t ∧ (t.thread = none ∨ t.thread = some w)
  /-- The queue has the tasks that were pushed and not taken, in the order of the pushes. -/
  queue : s.queue.map some = r.queued.map (r.pushed[·]?)
  queued_iff : ∀ i, i ∈ r.queued ↔ i < r.pushed.length ∧ i ∉ r.taken.map Prod.fst
  order : r.queued.Pairwise (· < ·)
  /-- `scheduler ()` adds its task, unless it is empty. -/
  scheduler : ∀ f thread s', actStep threads s (.scheduler f thread) = some s' →
    match f with
    | none => r.next s s' (.scheduler f thread) = r
    | some body => r.next s s' (.scheduler f thread) =
      { r with pushed := r.pushed ++ [{ body, thread }], queued := r.queued ++ [r.pushed.length] }
  /-- A worker takes the earliest of the queued tasks that are not pinned to another thread, and
  nothing when there is none. -/
  dequeue : ∀ w s', actStep threads s (.op (.dequeue w)) = some s' →
    (∃ i t, i ∈ r.queued ∧ r.pushed[i]? = some t ∧ eligible w t = true ∧
      (∀ j ∈ r.queued, j < i → ∀ t', r.pushed[j]? = some t' → eligible w t' = false) ∧
      s'.workers w = .got t.body ∧ r.next s s' (.op (.dequeue w)) =
        { r with queued := r.queued.erase i, taken := r.taken ++ [(i, w)] }) ∨
    (∀ j ∈ r.queued, ∀ t, r.pushed[j]? = some t → eligible w t = false) ∧
      s'.workers w = .noTask ∧ r.next s s' (.op (.dequeue w)) = r
  /-- `m_activeThreadCount` is the number of workers that have a task. -/
  active : s.active = (threads.filter fun w => (s.workers w).busy = true).card ∧
    ∀ w, (s.workers w).busy = true → w ∈ threads

section

variable {threads : Finset Nat} {s s' : Scheduler κ} {r : Record κ}

theorem Record.Tracks.all_nodup (h : r.Tracks threads s) :
    (r.queued ++ r.taken.map Prod.fst).Nodup :=
  h.all.nodup_iff.mpr List.nodup_range

theorem Record.Tracks.queued_iff (h : r.Tracks threads s) (i : Nat) :
    i ∈ r.queued ↔ i < r.pushed.length ∧ i ∉ r.taken.map Prod.fst := by
  constructor
  · intro hi
    refine ⟨h.queued_lt hi, ?_⟩
    intro htaken
    exact (List.nodup_append.mp h.all_nodup).2.2 i hi i htaken rfl
  · intro hi
    have hmem : i ∈ r.queued ++ r.taken.map Prod.fst :=
      h.all.symm.subset (List.mem_range.mpr hi.1)
    exact (List.mem_append.mp hmem).resolve_right hi.2

/-- A queued task stands in the queue where its number stands in the record. -/
theorem Record.Tracks.of_number (h : r.Tracks threads s) {k j : Nat} {t : SchedulerTask κ}
    (hj : r.queued[k]? = some j) (ht : r.pushed[j]? = some t) : s.queue[k]? = some t := by
  have hk := congrArg (·[k]?) h.queue
  simp only [List.getElem?_map, hj, ht, Option.map_some] at hk
  obtain ⟨t', ht', hsome⟩ := Option.map_eq_some_iff.mp hk
  rw [ht', Option.some.inj hsome]

/-- What stands before the task found is pinned to other threads. -/
theorem Record.Tracks.earliest (h : r.Tracks threads s) {w k i : Nat}
    (hk : s.queue.findIdx? (eligible w) = some k) (hi : r.queued[k]? = some i) {j : Nat}
    (hj : j ∈ r.queued) (hlt : j < i) {t : SchedulerTask κ} (ht : r.pushed[j]? = some t) :
    eligible w t = false := by
  obtain ⟨m, hm⟩ := List.mem_iff_getElem?.mp hj
  have hq : s.queue[m]? = some t := h.of_number hm ht
  obtain ⟨hmlt, hmj⟩ := List.getElem?_eq_some_iff.mp hm
  obtain ⟨hklt, hki⟩ := List.getElem?_eq_some_iff.mp hi
  -- the numbers grow along the queue, so that `j` stands before `i`
  have hmk : m < k := by
    by_contra hge
    rcases Nat.eq_or_lt_of_le (not_lt.mp hge) with heq | hgt
    · subst heq
      omega
    · have := List.pairwise_iff_getElem.mp h.order k m hklt hmlt hgt
      omega
  obtain ⟨hkq, -, hbefore⟩ := List.findIdx?_eq_some_iff_getElem.mp hk
  obtain ⟨hmq, hmt⟩ := List.getElem?_eq_some_iff.mp hq
  have hnot := hbefore m hmk
  rw [hmt] at hnot
  exact Bool.eq_false_iff.mpr hnot

theorem Record.Tracks.settles (h : r.Tracks threads s) : r.Settles threads s where
  taken_once := (List.nodup_append.mp h.all_nodup).2.1
  pinned i w hi := by
    obtain ⟨t, ht, hel⟩ := h.pinned i w hi
    exact ⟨t, ht, of_decide_eq_true hel⟩
  queue := h.queue
  queued_iff := h.queued_iff
  order := h.order
  scheduler f thread s' hstep := by
    have ha (w : Nat) : Act.scheduler f thread ≠ .op (.dequeue w) := fun hw => by cases hw
    cases f with
    | none =>
      cases hstep
      exact Record.next_same ha rfl
    | some body =>
      cases hstep
      exact Record.next_push ha rfl
  dequeue w s' hstep := by
    obtain ⟨heffect, -⟩ := actStep_effect hstep
    cases heffect with
    | keeps ha => exact absurd rfl (ha w)
    | pushes ha => exact absurd rfl (ha w)
    | finishes ha => exact absurd rfl (ha w)
    | takes ha t rest ht hq hc hw hidle =>
      cases ha
      left
      -- the scan has stopped at the first task that this worker may run
      obtain ⟨k, hk, hget, -⟩ := take_some ht
      obtain ⟨i, t', ht', hi, hpushed, hel⟩ := h.scan hk
      cases hget.symm.trans ht'
      refine ⟨i, t, List.mem_of_getElem? hi, hpushed, hel, ?_, ?_, ?_⟩
      · intro j hj hlt t' ht'
        exact h.earliest hk hi hj hlt ht'
      · rw [hw, Function.update_self]
      · have herase : r.queued.erase i = r.queued.eraseIdx k := by
          obtain ⟨hlt, hki⟩ := List.getElem?_eq_some_iff.mp hi
          rw [← hki]
          exact (List.nodup_append.mp h.all_nodup).1.erase_getElem k hlt
        rw [Record.next_take hk hi, herase]
    | misses ha ht hq hc hw hidle =>
      cases ha
      right
      -- it has gone through the whole queue
      have hnone := take_none ht
      refine ⟨?_, by rw [hw, Function.update_self], Record.next_miss hnone⟩
      intro j hj t hjt
      obtain ⟨m, hm⟩ := List.mem_iff_getElem?.mp hj
      exact List.findIdx?_eq_none_iff.mp hnone t (List.mem_of_getElem? (h.of_number hm hjt))
  active := ⟨h.active, h.threads⟩

/-- **A task is taken once, by a thread it may run on, and in the order of the pushes**, in every
interleaving of pushes with the steps of the workers; and `m_activeThreadCount` counts the workers
that have taken a task and not finished it. -/
theorem tasks_taken_in_order (threads : Finset Nat) (acts : List (Act κ)) (s : Scheduler κ)
    (h : runFrom (actStep threads) init acts = some s) :
    ∃ r, runFrom (recordStep (actStep threads) Record.next) (init, {}) acts = some (s, r) ∧
      r.Settles threads s := by
  obtain ⟨r, hr⟩ : ∃ r, runFrom (recordStep (actStep threads) Record.next) (init, {}) acts =
      some (s, r) := exists_recorded h ({} : Record κ)
  have htracks : r.Tracks threads s := by
    refine runFrom_invariant (P := fun p => p.2.Tracks threads p.1) ?_ Record.init_tracks hr
    intro p a p' hp hstep
    obtain ⟨s', hs', rfl⟩ := Option.map_eq_some_iff.mp hstep
    exact hp.next hs'
  exact ⟨r, hr, htracks.settles⟩

/-- Of two tasks the first is pinned to thread 8: thread 7 takes the second. -/
theorem tasks_taken_in_order_pinned :
    ∃ s r, runFrom (recordStep (actStep {7, 8}) Record.next) (init, {})
        [.scheduler (some (.cb 'a')) (some 8), .scheduler none none,
          .scheduler (some (.cb 'b')) none, .op (.dequeue 7)] = some (s, r) ∧
      r.queued = [0] ∧ r.taken = [(1, 7)] ∧ s.active = 1 ∧ r.Settles {7, 8} s := by
  obtain ⟨r, hr, hsettles⟩ := tasks_taken_in_order (κ := Char) {7, 8}
    [.scheduler (some (.cb 'a')) (some 8), .scheduler none none,
      .scheduler (some (.cb 'b')) none, .op (.dequeue 7)] _ rfl
  exact ⟨_, r, hr, by cases hr; rfl, by cases hr; rfl, rfl, hsettles⟩

end

end Luwu.Scheduler
