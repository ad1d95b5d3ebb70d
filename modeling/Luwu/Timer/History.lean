import Luwu.Timer.Expiry

/-!
# The life of a timer

What holds over whole runs of the calls on a manager and its timers.  A timer leaves the set when
it is cancelled or, as a one-shot timer, when it fires; a timer that has been returned to a client
and is outside of the set never gets back into it (`gone_step`), so that it is never emitted again.
-/

namespace Luwu.TimerManager

open Lib

variable {γ ω : Type} {m m' : TimerManager γ ω} {op : Op γ ω} {a : Nat}

/-! ## Writes to timers -/

theorem setTimer_touched_of_not_mem (ha : a ∉ m.timers) (t : Timer γ ω) :
    (m.setTimer a t).touched = m.touched := if_neg fun h => ha h.1

theorem setTimer_touched_of_next {t : Timer γ ω} (ht : m.heap a = some t) (t' : Timer γ ω)
    (hn : t'.next = t.next) : (m.setTimer a t').touched = m.touched := by
  refine if_neg fun h => h.2 ?_
  rw [ht, hn]
  rfl

/-- A timer is taken out, written and put back. -/
theorem rearm_touched (h : Inv m) (a : Nat) (t : Timer γ ω) : (m.rearm a t).touched = m.touched :=
  setTimer_touched_of_not_mem (m := { m with timers := m.timers.erase a }) h.nodup.not_mem_erase t

theorem notifyFront_touched (m : TimerManager γ ω) (a : Nat) :
    (m.notifyFront a).touched = m.touched := by
  unfold notifyFront
  split <;> rfl

theorem expireOne_touched (h : Inv m) {t : Timer γ ω} (ht : m.heap a = some t) (now : UInt64) :
    ∃ m₁, expireOne now a m = .ok t.cb m₁ ∧ Inv m₁ ∧ m₁.touched = m.touched ∧
      ∀ b, m.heap b ≠ none → m₁.heap b ≠ none := by
  refine ⟨_, expireOne_eq h ht now, ?_⟩
  split
  · refine ⟨rearm_inv h a _, rearm_touched h a _, ?_⟩
    intro b hb
    rw [rearm_heap]
    by_cases hba : b = a
    · rw [hba, Function.update_self]
      simp
    · rwa [Function.update_of_ne hba]
  · exact ⟨h.erase a, rfl, fun b hb => hb⟩

theorem expireAll_touched (h : Inv m) (now : UInt64) {as : List Nat}
    (has : ∀ a ∈ as, m.heap a ≠ none) {cbs : List (Option (Callback γ ω))}
    (hrun : expireAll now as m = .ok cbs m') : m'.touched = m.touched := by
  induction as generalizing m cbs with
  | nil =>
    cases hrun
    rfl
  | cons a as ih =>
    obtain ⟨t, ht⟩ := Option.ne_none_iff_exists'.mp (has a List.mem_cons_self)
    obtain ⟨m₁, hone, hinv, hsame, hkeep⟩ := expireOne_touched h ht now
    simp only [expireAll, Prog.bind_apply, hone, Outcome.bind_ok] at hrun
    cases hrest : expireAll now as m₁ with
    | ok cbs' m₂ =>
      rw [hrest] at hrun
      cases hrun
      exact (ih hinv (fun b hb => hkeep b (has b (List.mem_cons_of_mem a hb))) hrest).trans hsame
    | thrown e => cases e
    | fault f =>
      rw [hrest] at hrun
      cases hrun

theorem drop_state {α : Type} {c : M γ ω α} (hc : (drop c m).state? = some m') :
    ∃ r, c m = .ok r m' := by
  cases hr : c m with
  | ok r m₁ =>
    rw [drop_ok hr] at hc
    cases hc
    exact ⟨r, rfl⟩
  | thrown e => cases e
  | fault f =>
    rw [drop_fault hr] at hc
    cases hc

/-- **No call modifies the time of a timer that is in the set.** -/
theorem step_touched (h : Inv m) (hs : step m op = some m') : m'.touched = m.touched := by
  unfold step at hs
  split at hs
  case isFalse => cases hs
  case isTrue hv =>
    cases op with
    | addTimer a ms cb recurring now =>
      obtain ⟨r, hr⟩ := drop_state hs
      rw [addTimer_eq h (by simpa [valid] using hv)] at hr
      cases hr
      exact (notifyFront_touched _ a).trans (rearm_touched h a _)
    | addConditionTimer a ms cb weakCond recurring now =>
      obtain ⟨r, hr⟩ := drop_state hs
      rw [addConditionTimer, addTimer_eq h (by simpa [valid] using hv)] at hr
      cases hr
      exact (notifyFront_touched _ a).trans (rearm_touched h a _)
    | cancel a =>
      obtain ⟨t, ht⟩ := Option.isSome_iff_exists.mp (by simpa [valid] using hv)
      obtain ⟨r, hr⟩ := drop_state hs
      rw [cancel_eq h ht] at hr
      split at hr
      · split at hr
        · cases hr
          -- the callback is cleared while the timer is in the set, its time is not modified
          exact setTimer_touched_of_next ht { t with cb := none } rfl
        · cases hr
      · cases hr
        rfl
    | refresh a now =>
      obtain ⟨t, ht⟩ := Option.isSome_iff_exists.mp (by simpa [valid] using hv)
      obtain ⟨r, hr⟩ := drop_state hs
      rw [refresh_eq h ht] at hr
      split at hr <;> cases hr
      · exact rearm_touched h a _
      · rfl
    | reset a ms fromNow now =>
      obtain ⟨t, ht⟩ := Option.isSome_iff_exists.mp (by simpa [valid] using hv)
      obtain ⟨r, hr⟩ := drop_state hs
      rw [reset_eq h ht] at hr
      split at hr
      · cases hr
        rfl
      · split at hr <;> cases hr
        · exact (notifyFront_touched _ a).trans (rearm_touched h a _)
        · rfl
    | getNextTimer now =>
      obtain ⟨v, hv⟩ := getNextTimer_state h now
      obtain ⟨r, hr⟩ := drop_state hs
      rw [hv] at hr
      cases hr
      rfl
    | listExpiredCb now probe =>
      obtain ⟨r, hr⟩ := drop_state hs
      rw [listExpiredCb_apply] at hr
      exact expireAll_touched h now
        (fun b hb => h.alive b (m.expired_subset now probe hb)) hr

theorem run_touched {ops : List (Op γ ω)} (hrun : runFrom step init ops = some m) :
    m.touched = [] := by
  have hkept : Inv m ∧ m.touched = [] := by
    refine runFrom_invariant (P := fun x => Inv x ∧ x.touched = []) ?_ ⟨init_inv, rfl⟩ hrun
    rintro x op x' ⟨hinv, hnone⟩ hs
    exact ⟨(step_some hinv hs).1, (step_touched hinv hs).trans hnone⟩
  exact hkept.2

/-! ## Timers that have left the set -/

/-- A timer that some client knows and that is not in the set. -/
def Gone (m : TimerManager γ ω) (a : Nat) : Prop := m.heap a ≠ none ∧ a ∉ m.timers

theorem gone_step (h : Inv m) (hs : step m op = some m') (hg : m.Gone a) : m'.Gone a := by
  obtain ⟨hknown, habs⟩ := hg
  cases (step_some h hs).2 with
  | quiet _ hheap htim => exact ⟨by rwa [hheap], by rwa [htim]⟩
  | @added _ _ b t _ hb hheap htim =>
    have hne : a ≠ b := fun hab => hknown (hab ▸ hb)
    refine ⟨by rwa [hheap, Function.update_of_ne hne], ?_⟩
    rw [htim]
    exact not_or.mpr ⟨hne, habs⟩
  | @rearmed _ _ b t t' _ hb hmem _ _ hheap htim =>
    have hne : a ≠ b := fun hab => habs (hab ▸ hmem)
    exact ⟨by rwa [hheap, Function.update_of_ne hne], by rwa [htim]⟩
  | @cancelled _ b t hb hmem hheap htim =>
    have hne : a ≠ b := fun hab => habs (hab ▸ hmem)
    refine ⟨by rwa [hheap, Function.update_of_ne hne], ?_⟩
    rw [htim]
    exact fun hmem => habs hmem.1
  | fired hheap htim =>
    refine ⟨?_, ?_⟩
    · rw [hheap, ne_eq, Option.map_eq_none_iff]
      exact hknown
    · rw [htim]
      exact fun hmem => habs hmem.1

theorem recurring_step (h : Inv m) (hs : step m op = some m') {t : Timer γ ω}
    (ht : m.heap a = some t) : ∃ t', m'.heap a = some t' ∧ t'.recurring = t.recurring := by
  -- one timer is changed, and keeps whether it recurs
  have hupdate {b : Nat} {u : Timer γ ω} (hheap : m'.heap = Function.update m.heap b (some u))
      (hu : a = b → u.recurring = t.recurring) :
      ∃ t', m'.heap a = some t' ∧ t'.recurring = t.recurring := by
    rw [hheap]
    by_cases hab : a = b
    · exact ⟨u, by rw [hab, Function.update_self], hu hab⟩
    · exact ⟨t, by rw [Function.update_of_ne hab, ht], rfl⟩
  cases (step_some h hs).2 with
  | quiet _ hheap _ => exact ⟨t, by rw [hheap, ht], rfl⟩
  | added _ hb hheap _ =>
    refine hupdate hheap fun hab => ?_
    rw [← hab, ht] at hb
    cases hb
  | rearmed _ hb _ hrec _ hheap _ =>
    refine hupdate hheap fun hab => ?_
    rw [← hab, ht] at hb
    cases hb
    exact hrec
  | cancelled hb _ hheap _ =>
    refine hupdate hheap fun hab => ?_
    rw [← hab, ht] at hb
    cases hb
    rfl
  -- an expired timer is rearmed or emptied
  | fired hheap _ =>
    refine ⟨_, by rw [hheap, ht]; rfl, ?_⟩
    split
    · exact afterExpiry_recurring _ t
    · rfl

theorem recurring_run {ops : List (Op γ ω)} (h : Inv m) (hrun : runFrom step m ops = some m')
    {t t' : Timer γ ω} (ht : m.heap a = some t) (ht' : m'.heap a = some t') :
    t'.recurring = t.recurring := by
  have hkept : Inv m' ∧ ∃ u, m'.heap a = some u ∧ u.recurring = t.recurring := by
    refine runFrom_invariant
      (P := fun x => Inv x ∧ ∃ u, x.heap a = some u ∧ u.recurring = t.recurring) ?_
      ⟨h, t, ht, rfl⟩ hrun
    intro x op x' hx hs
    obtain ⟨hinv, u, hu, hrec⟩ := hx
    obtain ⟨u', hu', hrec'⟩ := recurring_step hinv hs hu
    exact ⟨(step_some hinv hs).1, u', hu', hrec'.trans hrec⟩
  obtain ⟨-, u, hu, hrec⟩ := hkept
  rw [ht'] at hu
  cases hu
  exact hrec

/-! ## Emissions -/

/-- The timers whose callbacks the calls of a run emit, in order. -/
def emitted (m : TimerManager γ ω) : List (Op γ ω) → List Nat
  | [] => []
  | op :: ops =>
    match step m op with
    | none => m.expiredBy op
    | some m' => m.expiredBy op ++ emitted m' ops

theorem mem_expiredBy (ha : a ∈ m.expiredBy op) :
    ∃ now probe, op = .listExpiredCb now probe ∧ a ∈ m.expired now probe := by
  cases op with
  | listExpiredCb now probe => exact ⟨now, probe, rfl, ha⟩
  | _ => cases ha

theorem expiredBy_subset (ha : a ∈ m.expiredBy op) : a ∈ m.timers := by
  obtain ⟨now, probe, rfl, hexp⟩ := mem_expiredBy ha
  exact m.expired_subset now probe hexp

theorem gone_not_emitted (h : Inv m) (hg : m.Gone a) (ops : List (Op γ ω)) :
    a ∉ m.emitted ops := by
  induction ops generalizing m with
  | nil => exact List.not_mem_nil
  | cons op ops ih =>
    have hnow : a ∉ m.expiredBy op := fun ha => hg.2 (expiredBy_subset ha)
    rw [emitted]
    split
    · exact hnow
    · rename_i m₁ hs
      rw [List.mem_append, not_or]
      exact ⟨hnow, ih (step_some h hs).1 (gone_step h hs hg)⟩

theorem expiredBy_nodup (h : Inv m) (op : Op γ ω) : (m.expiredBy op).Nodup := by
  cases op with
  | listExpiredCb now probe => exact expired_nodup h now probe
  | _ => exact List.nodup_nil

theorem gone_of_emitted (h : Inv m) (hs : step m op = some m') {t : Timer γ ω}
    (ht : m.heap a = some t) (hrec : t.recurring = false) (ha : a ∈ m.expiredBy op) :
    m'.Gone a := by
  have hsome : m.expiredBy op ≠ [] := List.ne_nil_of_mem ha
  cases (step_some h hs).2 with
  | quiet hnone => exact absurd hnone hsome
  | added hnone => exact absurd hnone hsome
  | rearmed hnone => exact absurd hnone hsome
  | cancelled => exact absurd rfl hsome
  | fired hheap htim =>
    refine ⟨by rw [hheap, ht]; simp, ?_⟩
    rw [htim]
    rintro ⟨-, hre⟩
    obtain ⟨u, hu, hurec⟩ := hre ha
    rw [ht] at hu
    cases hu
    rw [hrec] at hurec
    cases hurec

theorem count_emitted (h : Inv m) {ops : List (Op γ ω)} (hrun : runFrom step m ops = some m')
    {t : Timer γ ω} (ht : m'.heap a = some t) (hrec : t.recurring = false) :
    (m.emitted ops).count a ≤ 1 := by
  induction ops generalizing m with
  | nil => exact Nat.zero_le 1
  | cons op ops ih =>
    obtain ⟨m₁, hs, hrest⟩ := runFrom_cons_some.mp hrun
    have hinv₁ := (step_some h hs).1
    simp only [emitted, hs, List.count_append]
    by_cases ha : a ∈ m.expiredBy op
    · -- it is emitted now, once, and is gone afterwards
      obtain ⟨t₀, ht₀⟩ := Option.ne_none_iff_exists'.mp (h.alive a (expiredBy_subset ha))
      have hrec₀ : t₀.recurring = false := (recurring_run h hrun ht₀ ht).symm.trans hrec
      have hgone := gone_of_emitted h hs ht₀ hrec₀ ha
      rw [List.count_eq_zero_of_not_mem (gone_not_emitted hinv₁ hgone ops)]
      exact List.nodup_iff_count_le_one.mp (expiredBy_nodup h op) a
    · rw [List.count_eq_zero_of_not_mem ha, Nat.zero_add]
      exact ih hinv₁ hrest

theorem gone_of_cancel (h : Inv m) (hc : cancel a m = .ok true m') : Inv m' ∧ m'.Gone a := by
  cases ht : m.heap a with
  | none =>
    simp only [cancel, Prog.bind_apply, deref, ht] at hc
    cases hc
  | some t =>
    rw [cancel_eq h ht] at hc
    split at hc
    · split at hc
      · cases hc
        refine ⟨cancelled_inv h a { t with cb := none }, ?_, h.nodup.not_mem_erase⟩
        change Function.update m.heap a _ a ≠ none
        rw [Function.update_self]
        simp
      · cases hc
    · cases hc

/-- **The life of a timer.**  After any run of calls the set is strictly sorted by time and
address, and none of the calls has modified a timer's time while the timer was in the set; a
further call, if it is a `cancel` on a timer of the set only, returns; `listExpiredCb` emits the
callbacks of timers whose time has come; a one-shot timer has been emitted at most once; and a
timer that `cancel` returns `true` for is never emitted again. -/
theorem timer_history (ops : List (Op γ ω)) (m : TimerManager γ ω)
    (hrun : runFrom step init ops = some m) :
    (m.timers.Nodup ∧ m.timers.Pairwise fun a b => ∃ t u, m.heap a = some t ∧ m.heap b = some u ∧
      (t.next < u.next ∨ t.next = u.next ∧ a < b)) ∧
    m.touched = [] ∧
    (∀ op, m.valid op = true → (∀ a, op = .cancel a → a ∈ m.timers) →
      ∃ m', step m op = some m') ∧
    (∀ now probe cbs m', m.heap probe = none → listExpiredCb now probe m = .ok cbs m' →
      cbs = (m.expired now probe).map m.callback ∧
      ∀ a ∈ m.expired now probe, ∃ t, m.heap a = some t ∧ t.next ≤ now) ∧
    (∀ a t, m.heap a = some t → t.recurring = false → (emitted init ops).count a ≤ 1) ∧
    ∀ a m', cancel a m = .ok true m' → ∀ ops', a ∉ m'.emitted ops' := by
  have h : Inv m := (run_accounted hrun).inv
  refine ⟨⟨h.nodup, ?_⟩, run_touched hrun, ?_, ?_,
    fun a t ht hrec => count_emitted init_inv hrun ht hrec, ?_⟩
  · apply (timers_pairwise h).imp_of_mem
    intro a b ha hb hab
    obtain ⟨t, ht⟩ := Option.ne_none_iff_exists'.mp (h.alive a ha)
    obtain ⟨u, hu⟩ := Option.ne_none_iff_exists'.mp (h.alive b hb)
    refine ⟨t, u, ht, hu, (hab t u ht hu).imp UInt64.lt_iff_toNat_lt.mpr ?_⟩
    exact And.imp_left fun hn => UInt64.toNat.inj hn
  · intro op hv hc
    rcases exec_cases h hv with ⟨⟨a, t, hop, -, -, hnot⟩, -⟩ | ⟨-, m', hexec, -, -⟩
    · -- `cancel` of a timer that is not in the set is left out by the hypothesis
      exact absurd (hc a hop) hnot
    · refine ⟨m', ?_⟩
      rw [step, if_pos hv, hexec]
      rfl
  · intro now probe cbs m' hp hcbs
    -- each timer of the prefix is due, whatever the address of the temporary
    obtain ⟨m₁, hall, -⟩ := expireAll_spec h now (expired_nodup h now probe)
      fun a ha => m.expired_subset now probe ha
    rw [listExpiredCb_apply, hall] at hcbs
    cases hcbs
    refine ⟨rfl, ?_⟩
    intro a ha
    obtain ⟨t, ht⟩ := Option.ne_none_iff_exists'.mp (h.alive a (m.expired_subset now probe ha))
    refine ⟨t, ht, ?_⟩
    rw [UInt64.le_iff_toNat_le, ← isDue_of_heap ht]
    exact isDue_of_mem_expired h hp ha
  · intro a m' hc ops'
    -- a cancelled timer has no callback left, and no call gives it one
    obtain ⟨hinv, hgone⟩ := gone_of_cancel h hc
    exact gone_not_emitted hinv hgone ops'

/-- A one-shot timer that has fired, and is refreshed, is not emitted a second time. -/
theorem timer_history_refresh :
    (emitted (init : TimerManager Unit Unit) [.addTimer 1 10 (some (.fn ())) false 0,
      .listExpiredCb 11 2, .refresh 1 12, .listExpiredCb 40 2]).count 1 ≤ 1 :=
  (timer_history [.addTimer 1 10 (some (.fn ())) false 0, .listExpiredCb 11 2, .refresh 1 12,
    .listExpiredCb 40 2] _ rfl).2.2.2.2.1 1 _ rfl rfl

end Luwu.TimerManager
