import Luwu.IOManager.Events
import Luwu.Lib.Count

/-!
# Registrations

A bit of `FdContext::event` says that the event's context is filled in, that the kernel watches for
the event and that the event is counted in `m_pendingEventCount`.  `Inv` is this relation; every
operation that goes through replaces one context and keeps it.
-/

namespace Luwu

open Lib

/-! ## One context -/

namespace FdContext

variable {κ φ : Type}

/-- An armed event has a scheduler and a callback or a fiber; the context of any other is empty. -/
structure Wf (c : FdContext κ φ) : Prop where
  armed : ∀ e, c.event e = true →
    (∃ s, (c.context e).scheduler = some s) ∧
      (((c.context e).cb.isSome ∧ (c.context e).fiber = none) ∨
        ((c.context e).cb = none ∧ (c.context e).fiber.isSome))
  idle : ∀ e, c.event e = false → c.context e = {}

/-- The context without the events of `s`. -/
def retire (c : FdContext κ φ) (s : Mask) : FdContext κ φ where
  context e := if s e then {} else c.context e
  event e := c.event e && !s e

/-- What triggering the event `e` hands out. -/
def tasks (c : FdContext κ φ) (e : Event) : List (Nat × Task κ φ) :=
  match (c.context e).scheduler with
  | none => []
  | some s => [(s, (c.context e).task)]

theorem empty_wf : Wf ({} : FdContext κ φ) where
  armed e he := by cases he
  idle e _ := rfl

theorem Wf.retire {c : FdContext κ φ} (h : Wf c) (s : Mask) : Wf (c.retire s) where
  armed e he := by
    simp only [FdContext.retire, Bool.and_eq_true, Bool.not_eq_true'] at he ⊢
    rw [if_neg (by rw [he.2]; simp)]
    exact h.armed e he.1
  idle e he := by
    simp only [FdContext.retire] at he ⊢
    split
    · rfl
    · rename_i hs
      exact h.idle e (by simpa [hs] using he)

theorem Wf.register {c : FdContext κ φ} (h : Wf c) (e : Event) (cb : Option κ) (sched : Nat)
    (self : φ) :
    Wf { context := Function.update c.context e (.fill cb sched self)
         event := Function.update c.event e true } where
  armed e' he := by
    by_cases hee : e' = e
    · subst hee
      simp only [Function.update_self]
      cases cb with
      | some f => exact ⟨⟨sched, rfl⟩, .inl ⟨rfl, rfl⟩⟩
      | none => exact ⟨⟨sched, rfl⟩, .inr ⟨rfl, rfl⟩⟩
    · simp only [Function.update_of_ne hee] at he ⊢
      exact h.armed e' he
  idle e' he := by
    by_cases hee : e' = e
    · subst hee
      simp at he
    · simp only [Function.update_of_ne hee] at he ⊢
      exact h.idle e' he

theorem retire_retire (c : FdContext κ φ) (s t : Mask) :
    (c.retire s).retire t = c.retire fun e => s e || t e := by
  simp only [retire, FdContext.mk.injEq]
  constructor
  · funext e
    by_cases hs : s e = true <;> by_cases ht : t e = true <;> simp [hs, ht]
  · funext e
    cases c.event e <;> cases s e <;> cases t e <;> rfl

end FdContext

/-- The mask with the one bit `e`, if `b`. -/
def Mask.only (e : Event) (b : Bool) : Mask := fun e' => decide (e' = e) && b

/-- What the kernel should be watching for. -/
def Mask.interest (s : Mask) : Option Mask := if s.any then some s else Option.none

theorem Mask.within_iff {s t : Mask} : s.within t = true ↔ ∀ e, s e = true → t e = true := by
  constructor
  · intro h e he
    simp only [within, Bool.and_eq_true, Bool.or_eq_true, Bool.not_eq_true'] at h
    cases e
    · rcases h.1 with hr | hr
      · rw [he] at hr
        cases hr
      · exact hr
    · rcases h.2 with hw | hw
      · rw [he] at hw
        cases hw
      · exact hw
  · intro h
    simp only [within, Bool.and_eq_true, Bool.or_eq_true, Bool.not_eq_true']
    constructor
    · cases hr : s .read with
      | false => exact .inl rfl
      | true => exact .inr (h .read hr)
    · cases hw : s .write with
      | false => exact .inl rfl
      | true => exact .inr (h .write hw)

namespace IOManager

variable {n : Nat} {κ φ : Type}

/-! ## The invariant -/

def armed (m : IOManager n κ φ) : Nat := ∑ fd, (m.contexts fd).event.count

structure Inv (m : IOManager n κ φ) : Prop where
  wf : ∀ fd, (m.contexts fd).Wf
  interest : ∀ fd, m.interest fd = (m.contexts fd).event.interest
  pending : m.pending = m.armed

theorem init_inv : Inv (init : IOManager n κ φ) where
  wf _ := FdContext.empty_wf
  interest _ := rfl
  pending := by simp [init, armed, Mask.count, Mask.none]

/-- Replace the context of `fd`, together with what the kernel and the counter say about it. -/
def setFd (m : IOManager n κ φ) (fd : Fin n) (c : FdContext κ φ) (tasks : List (Nat × Task κ φ)) :
    IOManager n κ φ :=
  { m with contexts := Function.update m.contexts fd c
           interest := Function.update m.interest fd c.event.interest
           pending := m.pending - (m.contexts fd).event.count + c.event.count
           scheduled := m.scheduled ++ tasks }

theorem armed_update (m : IOManager n κ φ) (fd : Fin n) (c : FdContext κ φ) :
    ((∑ x, (Function.update m.contexts fd c x).event.count : Nat) : Int) =
      m.armed - (m.contexts fd).event.count + c.event.count := by
  have hsum := sum_update (fun c : FdContext κ φ => c.event.count) m.contexts fd c
  unfold armed
  omega

theorem setFd_inv {m : IOManager n κ φ} (h : Inv m) (fd : Fin n) {c : FdContext κ φ} (hc : c.Wf)
    (tasks : List (Nat × Task κ φ)) : Inv (m.setFd fd c tasks) where
  wf x := by
    by_cases hx : x = fd
    · subst hx
      simpa [setFd] using hc
    · simpa [setFd, Function.update_of_ne hx] using h.wf x
  interest x := by
    by_cases hx : x = fd
    · subst hx
      simp [setFd]
    · simpa [setFd, Function.update_of_ne hx] using h.interest x
  pending := by
    change m.pending - _ + _ = ((∑ x, (Function.update m.contexts fd c x).event.count : Nat) : Int)
    rw [armed_update, h.pending]

/-! ## The operations -/

theorem retire_none (c : FdContext κ φ) {s : Mask} (hs : ∀ e, s e = false) : c.retire s = c := by
  simp only [FdContext.retire, hs, Bool.false_eq_true, if_false, Bool.not_false, Bool.and_true]

theorem retire_only (c : FdContext κ φ) (e : Event) :
    c.retire (Mask.only e true) =
      { context := Function.update c.context e {}, event := Function.update c.event e false } := by
  simp only [FdContext.retire, FdContext.mk.injEq, Mask.only, Bool.and_true, decide_eq_true_eq]
  constructor
  · funext e'
    by_cases h : e' = e
    · simp [h]
    · simp [h]
  · funext e'
    by_cases h : e' = e
    · simp [h]
    · simp [h]

theorem triggerEvent_eq {m : IOManager n κ φ} {fd : Fin n} {e : Event}
    (hw : (m.contexts fd).Wf) (he : (m.contexts fd).event e = true) :
    triggerEvent fd e m =
      .ok () { m.setContext fd ((m.contexts fd).retire (Mask.only e true)) with
        scheduled := m.scheduled ++ (m.contexts fd).tasks e } := by
  obtain ⟨⟨s, hs⟩, -⟩ := hw.armed e he
  simp only [triggerEvent, he, Bool.true_eq_false, if_false, hs, FdContext.tasks, retire_only]

theorem triggerEvent_idle {m : IOManager n κ φ} {fd : Fin n} {e : Event}
    (he : (m.contexts fd).event e = false) : triggerEvent fd e m = .fault .triggerAssert := by
  simp only [triggerEvent, he, if_true]

theorem triggerIf_eq {m : IOManager n κ φ} {fd : Fin n} {e : Event} {b : Bool}
    (hw : (m.contexts fd).Wf) (he : b = true → (m.contexts fd).event e = true) :
    triggerIf b fd e m =
      .ok () { m with
        contexts := Function.update m.contexts fd ((m.contexts fd).retire (Mask.only e b))
        pending := m.pending - b.toNat
        scheduled := m.scheduled ++ if b then (m.contexts fd).tasks e else [] } := by
  cases b with
  | true =>
    simp only [triggerIf, if_true, Prog.bind_apply, triggerEvent_eq hw (he rfl), Outcome.bind_ok,
      decPending, Prog.modify_apply]
    rfl
  | false =>
    have hnone : (m.contexts fd).retire (Mask.only e false) = m.contexts fd :=
      retire_none _ fun e' => by simp [Mask.only]
    simp only [triggerIf, Bool.false_eq_true, if_false, hnone, Function.update_eq_self,
      List.append_nil]
    simp

theorem triggerIf_idle {m : IOManager n κ φ} {fd : Fin n} {e : Event}
    (he : (m.contexts fd).event e = false) : triggerIf true fd e m = .fault .triggerAssert := by
  simp only [triggerIf, if_true, Prog.bind_apply, triggerEvent_idle he, Outcome.bind_fault]

/-- The kernel watches for the events of `s`. -/
def setInterest (m : IOManager n κ φ) (fd : Fin n) (s : Mask) : IOManager n κ φ :=
  { m with interest := Function.update m.interest fd s.interest }

@[simp] theorem setInterest_contexts (m : IOManager n κ φ) (fd : Fin n) (s : Mask) :
    (m.setInterest fd s).contexts = m.contexts := rfl

/-- The kernel goes along with what `addEvent` asks of it. -/
theorem epollCtl_add {m : IOManager n κ φ} (h : Inv m) (fd : Fin n) {mask : Mask}
    (hmask : mask.any = true) :
    epollCtl (if (m.contexts fd).event.any then CtlOp.mod else .add) fd mask true m =
      .ok true (m.setInterest fd mask) := by
  have hint := h.interest fd
  simp only [epollCtl, setInterest, hint, Mask.interest, hmask, if_true]
  by_cases hany : (m.contexts fd).event.any = true
  · simp [hany]
  · simp [hany]

/-- And with what the operations that retire events ask. -/
theorem epollCtl_retire {m : IOManager n κ φ} (h : Inv m) (fd : Fin n) (left : Mask)
    (hany : (m.contexts fd).event.any = true) :
    epollCtl (if left.any then CtlOp.mod else .del) fd left true m =
      .ok true (m.setInterest fd left) := by
  have hint := h.interest fd
  simp only [epollCtl, setInterest, hint, Mask.interest, hany, if_true]
  by_cases hleft : left.any = true
  · simp [hleft]
  · simp [hleft]

theorem epollCtl_false (op : CtlOp) (fd : Fin n) (mask : Mask) (m : IOManager n κ φ) :
    epollCtl op fd mask false m = .ok false m := by
  simp [epollCtl]

theorem any_of_mem {s : Mask} {e : Event} (he : s e = true) : s.any = true := by
  cases e <;> simp [Mask.any, he]

theorem count_update_true {s : Mask} {e : Event} (he : s e = false) :
    Mask.count (Function.update s e true) = s.count + 1 := by
  cases e
  · simp [Mask.count, he, Nat.add_comm]
  · simp [Mask.count, he]

theorem count_update_false {s : Mask} {e : Event} (he : s e = true) :
    s.count = Mask.count (Function.update s e false) + 1 := by
  cases e
  · simp [Mask.count, he, Nat.add_comm]
  · simp [Mask.count, he]

theorem addEvent_eq {m : IOManager n κ φ} (h : Inv m) (fd : Fin n) (e : Event) (cb : Option κ)
    (sched : Nat) (self : φ) (ok : Bool) :
    addEvent fd e cb sched self ok m =
      if (m.contexts fd).event e then .fault .addAssert
      else if ok then
        .ok true (m.setFd fd
          { context := Function.update (m.contexts fd).context e (.fill cb sched self)
            event := Function.update (m.contexts fd).event e true } [])
      else .ok false m := by
  simp only [addEvent, Prog.bind_apply, Prog.gets_apply, Outcome.bind_ok]
  cases he : (m.contexts fd).event e with
  | true => simp
  | false =>
    cases ok with
    | false => simp [epollCtl_false]
    | true =>
      have hctl := epollCtl_add h fd
        (any_of_mem (Function.update_self e true (m.contexts fd).event))
      have hempty := (h.wf fd).idle e he
      simp only [Bool.false_eq_true, if_false, Prog.bind_apply, hctl, Outcome.bind_ok, if_true,
        Prog.modify_apply, hempty, Option.isSome_none, Bool.or_self, Prog.pure_apply]
      congr 1
      simp only [setFd, setInterest, setContext, List.append_nil, IOManager.mk.injEq, true_and,
        and_true]
      rw [count_update_true he]
      omega

theorem delEvent_eq {m : IOManager n κ φ} (h : Inv m) (fd : Fin n) (e : Event) (ok : Bool) :
    delEvent fd e ok m =
      if (m.contexts fd).event e ∧ ok then
        .ok true (m.setFd fd ((m.contexts fd).retire (Mask.only e true)) [])
      else .ok false m := by
  simp only [delEvent, Prog.bind_apply, Prog.gets_apply, Outcome.bind_ok]
  cases he : (m.contexts fd).event e with
  | false => simp
  | true =>
    cases ok with
    | false => simp [epollCtl_false]
    | true =>
      have hctl := epollCtl_retire h fd (Function.update (m.contexts fd).event e false)
        (any_of_mem he)
      simp only [if_true, Prog.bind_apply, hctl, Outcome.bind_ok, decPending, Prog.modify_apply,
        Prog.pure_apply, and_self]
      congr 1
      simp only [setFd, setInterest, setContext, retire_only, List.append_nil, IOManager.mk.injEq,
        true_and, and_true]
      rw [count_update_false he]
      omega

theorem cancelEvent_eq {m : IOManager n κ φ} (h : Inv m) (fd : Fin n) (e : Event) (ok : Bool) :
    cancelEvent fd e ok m =
      if (m.contexts fd).event e ∧ ok then
        .ok true (m.setFd fd ((m.contexts fd).retire (Mask.only e true))
          ((m.contexts fd).tasks e))
      else .ok false m := by
  simp only [cancelEvent, Prog.bind_apply, Prog.gets_apply, Outcome.bind_ok]
  cases he : (m.contexts fd).event e with
  | false => simp
  | true =>
    cases ok with
    | false => simp [epollCtl_false]
    | true =>
      have hctl := epollCtl_retire h fd (Function.update (m.contexts fd).event e false)
        (any_of_mem he)
      simp only [if_true, Prog.bind_apply, hctl, Outcome.bind_ok]
      have htrig : triggerEvent fd e
          (m.setInterest fd (Function.update (m.contexts fd).event e false)) = _ :=
        triggerEvent_eq (h.wf fd) he
      simp only [htrig, Outcome.bind_ok, decPending, Prog.modify_apply, Prog.pure_apply, and_self,
        if_true]
      congr 1
      simp only [setFd, setInterest, setContext, retire_only, IOManager.mk.injEq, true_and,
        and_true]
      rw [count_update_false he]
      omega

/-- What triggering the events of `s`, `READ` first, hands out. -/
def tasksOf (c : FdContext κ φ) (s : Mask) : List (Nat × Task κ φ) :=
  (if s .read then c.tasks .read else []) ++ if s .write then c.tasks .write else []

theorem only_or_only (s : Mask) :
    (fun e => Mask.only .read (s .read) e || Mask.only .write (s .write) e) = s := by
  funext e
  cases e
  · simp [Mask.only]
  · simp [Mask.only]

theorem count_retire {c : FdContext κ φ} {s : Mask} (hs : ∀ e, s e = true → c.event e = true) :
    c.event.count = (c.retire s).event.count + s.count := by
  have hbit : ∀ e, (c.event e).toNat = ((c.retire s).event e).toNat + (s e).toNat := by
    intro e
    cases he : s e with
    | true => simp [FdContext.retire, he, hs e he]
    | false => simp [FdContext.retire, he]
  have hr := hbit .read
  have hw := hbit .write
  unfold Mask.count
  omega

/-- `triggerEvent (READ)` and `triggerEvent (WRITE)` where `s` says so, after the kernel was told:
all of `s` must be armed. -/
theorem triggerBoth_eq {m : IOManager n κ φ} (h : Inv m) (fd : Fin n) {s : Mask}
    (hs : ∀ e, s e = true → (m.contexts fd).event e = true) :
    ((triggerIf (s .read) fd .read >>= fun _ => triggerIf (s .write) fd .write) : M n κ φ Unit)
        (m.setInterest fd ((m.contexts fd).retire s).event) =
      .ok () (m.setFd fd ((m.contexts fd).retire s) (tasksOf (m.contexts fd) s)) := by
  have hread : triggerIf (s .read) fd .read
      (m.setInterest fd ((m.contexts fd).retire s).event) = _ :=
    triggerIf_eq (h.wf fd) (hs .read)
  rw [Prog.bind_apply, hread, Outcome.bind_ok, triggerIf_eq]
  · have hcount := count_retire hs
    have hwrite : ((m.contexts fd).retire (Mask.only .read (s .read))).tasks .write =
        (m.contexts fd).tasks .write := by
      simp [FdContext.tasks, FdContext.retire, Mask.only]
    simp only [setInterest, Function.update_self, Function.update_idem,
      FdContext.retire_retire, only_or_only, hwrite, setFd, tasksOf, List.append_assoc]
    congr 2
    unfold Mask.count at *
    omega
  · simp only [setInterest, Function.update_self]
    exact (h.wf fd).retire _
  · intro hw
    simp [setInterest, FdContext.retire, Mask.only, hs .write hw]

theorem cancelAll_eq {m : IOManager n κ φ} (h : Inv m) (fd : Fin n) (ok : Bool) :
    cancelAll fd ok m =
      if (m.contexts fd).event.any ∧ ok then
        .ok true (m.setFd fd ((m.contexts fd).retire (m.contexts fd).event)
          (tasksOf (m.contexts fd) (m.contexts fd).event))
      else .ok false m := by
  simp only [cancelAll, Prog.bind_apply, Prog.gets_apply, Outcome.bind_ok]
  cases hany : (m.contexts fd).event.any with
  | false => simp
  | true =>
    cases ok with
    | false => simp [epollCtl_false]
    | true =>
      have hnone : ((m.contexts fd).retire (m.contexts fd).event).event = Mask.none := by
        funext e
        simp [FdContext.retire, Mask.none]
      have hctl : epollCtl .del fd Mask.none true m = .ok true (m.setInterest fd Mask.none) :=
        epollCtl_retire h fd Mask.none hany
      have hread : triggerIf ((m.contexts fd).event .read) fd .read
          (m.setInterest fd Mask.none) = _ := triggerIf_eq (h.wf fd) id
      -- the second trigger sees the mask that the first one has left
      have hboth := triggerBoth_eq h fd fun e he => he
      rw [hnone, Prog.bind_apply, hread, Outcome.bind_ok] at hboth
      have hleft : ((m.contexts fd).retire (Mask.only .read ((m.contexts fd).event .read))).event
          .write = (m.contexts fd).event .write := by
        simp [FdContext.retire, Mask.only]
      have hdone : Mask.any (((m.setFd fd ((m.contexts fd).retire (m.contexts fd).event)
          (tasksOf (m.contexts fd) (m.contexts fd).event)).contexts fd).event) = false := by
        simp only [setFd, Function.update_self, hnone]
        rfl
      simp only [if_true, Prog.bind_apply, hctl, Outcome.bind_ok, Prog.gets_apply,
        setInterest_contexts, hread, Function.update_self, hleft, and_self]
      simp only [setInterest_contexts] at hboth
      simp only [hboth, Outcome.bind_ok, hdone, Bool.false_eq_true, if_false, Prog.pure_apply]

/-- The entries whose reported events are all still armed are handled as registered, those of which
none is armed are skipped, and any other runs into the assertion of `triggerEvent`. -/
theorem handleEvent_eq {m : IOManager n κ φ} (h : Inv m) (ev : EpollEvent n) (ok : Bool) :
    handleEvent ev ok m =
      if Mask.any (fun e => (m.contexts ev.fd).event e &&
          realEvents ev (m.contexts ev.fd).event e) ∧ ok then
        if ev.bits.within (m.contexts ev.fd).event then
          .ok () (m.setFd ev.fd
            ((m.contexts ev.fd).retire (realEvents ev (m.contexts ev.fd).event))
            (tasksOf (m.contexts ev.fd) (realEvents ev (m.contexts ev.fd).event)))
        else .fault .triggerAssert
      else .ok () m := by
  generalize hreal : realEvents ev (m.contexts ev.fd).event = real
  have hbits : ∀ e, ev.bits e = true → real e = true := by
    intro e he
    rw [← hreal, realEvents, he, Bool.true_or]
  simp only [handleEvent, Prog.bind_apply, Prog.gets_apply, Outcome.bind_ok, hreal]
  cases hany : Mask.any (fun e => (m.contexts ev.fd).event e && real e) with
  | false => simp
  | true =>
    cases ok with
    | false => simp [epollCtl_false]
    | true =>
      have hev : (m.contexts ev.fd).event.any = true := by
        simp only [Mask.any, Bool.or_eq_true, Bool.and_eq_true] at hany ⊢
        tauto
      have hctl := epollCtl_retire h ev.fd
        (fun e => (m.contexts ev.fd).event e && !real e) hev
      simp only [if_true, Prog.bind_apply, hctl, Outcome.bind_ok, and_self]
      by_cases hin : ev.bits.within (m.contexts ev.fd).event = true
      · rw [if_pos hin]
        refine triggerBoth_eq h ev.fd ?_
        intro e he
        rw [← hreal, realEvents, Bool.or_eq_true, Bool.and_eq_true] at he
        rcases he with he | he
        · exact Mask.within_iff.mp hin e he
        · exact he.2
      · rw [if_neg hin]
        rw [Mask.within_iff, not_forall] at hin
        obtain ⟨e, he⟩ := hin
        obtain ⟨hbit, hnot⟩ := Classical.not_imp.mp he
        rw [Bool.not_eq_true] at hnot
        cases e with
        | read =>
          have hfault : triggerIf true ev.fd .read
              (m.setInterest ev.fd fun e => (m.contexts ev.fd).event e && !real e) = _ :=
            triggerIf_idle hnot
          rw [hbits .read hbit, hfault, Outcome.bind_fault]
        | write =>
          -- the event that let the entry through is `READ`, and it is triggered first
          have hread : (m.contexts ev.fd).event .read = true := by
            simp only [Mask.any, hnot, Bool.false_and, Bool.or_false, Bool.and_eq_true] at hany
            exact hany.1
          have hok : triggerIf (real .read) ev.fd .read
              (m.setInterest ev.fd fun e => (m.contexts ev.fd).event e && !real e) = _ :=
            triggerIf_eq (h.wf ev.fd) fun _ => hread
          rw [hbits .write hbit, hok, Outcome.bind_ok, triggerIf_idle]
          simp [FdContext.retire, Mask.only, hnot]

end IOManager

end Luwu
