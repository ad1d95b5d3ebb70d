import Mathlib.Algebra.Group.Nat.Defs
import Luwu.Timer.History

/-!
# Timer wake-ups

An idle thread sleeps until the deadline that its `getNextTimer` saw at the front of the set.  The
calls on the manager and its timers interleave, each in one critical section; the call of
`onTimerInsertAtFront` follows outside of it, so that other calls may come in between.  `Watch` is
the manager with what the last `getNextTimer` saw and with the notifications that are still to be
made.  No timer gets an earlier time than the deadline seen unless a notification is on its way:
`refresh` and `listExpiredCb` put timers back without one, but never at an earlier time.
-/

namespace Luwu.TimerManager

open Lib

variable {γ ω : Type} {m : TimerManager γ ω}

/-- The clock reading of a call; for one that makes none, any time at which it is called. -/
def Op.reading : Op γ ω → Option UInt64
  | .addTimer _ _ _ _ now => some now
  | .addConditionTimer _ _ _ _ _ now => some now
  | .cancel _ => none
  | .refresh _ now => some now
  | .reset _ _ _ now => some now
  | .getNextTimer now => some now
  | .listExpiredCb now _ => some now

/-- The times that the call computes do not pass `2 ^ 64`. -/
def Fits (m : TimerManager γ ω) : Op γ ω → Prop
  | .addTimer _ ms _ _ now => now.toNat + ms.toNat < 2 ^ 64
  | .addConditionTimer _ ms _ _ _ now => now.toNat + ms.toNat < 2 ^ 64
  | .cancel _ => True
  | .refresh a now => ∀ t, m.heap a = some t → now.toNat + t.ms.toNat < 2 ^ 64
  | .reset _ ms _ now => now.toNat + ms.toNat < 2 ^ 64
  | .getNextTimer _ => True
  | .listExpiredCb now probe => ∀ a ∈ m.expired now probe, ∀ t, m.heap a = some t →
      now.toNat + t.ms.toNat < 2 ^ 64

/-- The time of the front of the set, `none` for an empty set. -/
def front (m : TimerManager γ ω) : Option UInt64 :=
  m.timers.head?.bind fun a => (m.heap a).map (·.next)

/-- The manager as the idle threads depend on it. -/
structure Watch (γ ω : Type) where
  manager : TimerManager γ ω
  /-- The last clock reading. -/
  clock : UInt64
  /-- The front deadline that the last `getNextTimer` saw; `none` is infinity. -/
  deadline : Option UInt64
  /-- The number of notifications decided on before that `getNextTimer`. -/
  looked : Nat
  /-- Notifications decided on, by number, whose `onTimerInsertAtFront` has not been called. -/
  pending : List Nat
  /-- Those whose `onTimerInsertAtFront` has been called. -/
  called : List Nat

namespace Watch

def init : Watch γ ω :=
  { manager := TimerManager.init, clock := 0, deadline := none, looked := 0, pending := [],
    called := [] }

inductive Act (γ ω : Type) where
  /-- The critical section of a call. -/
  | call (op : Op γ ω)
  /-- A call of `onTimerInsertAtFront` that a critical section has decided on. -/
  | notify (n : Nat)

/-- The state after the critical section of a call: a notification decided on is pending, and
`getNextTimer` has looked at the front. -/
def after (w : Watch γ ω) (op : Op γ ω) (m : TimerManager γ ω) : Watch γ ω :=
  { manager := m
    clock := op.reading.getD w.clock
    deadline := match op with
      | .getNextTimer _ => w.manager.front
      | _ => w.deadline
    looked := match op with
      | .getNextTimer _ => m.frontCalls
      | _ => w.looked
    pending := if m.frontCalls = w.manager.frontCalls then w.pending else m.frontCalls :: w.pending
    called := w.called }

/-- One step of an interleaving, with clock readings that do not decrease and times below
`2 ^ 64`. -/
inductive Step (w : Watch γ ω) : Act γ ω → Watch γ ω → Prop where
  | call {op : Op γ ω} {m : TimerManager γ ω} (hstep : step w.manager op = some m)
      (hclock : ∀ now, op.reading = some now → w.clock ≤ now) (hfits : w.manager.Fits op) :
      Step w (.call op) (w.after op m)
  | notify {n : Nat} (hn : n ∈ w.pending) :
      Step w (.notify n) { w with pending := w.pending.erase n, called := n :: w.called }

/-- The states of all interleavings. -/
inductive Reachable : Watch γ ω → Prop where
  | init : Reachable init
  | step {w w' : Watch γ ω} {act : Act γ ω} : Reachable w → Step w act w' → Reachable w'

end Watch

/-! ## Times only move forward -/

/-- No timer of the set is due before `d`. -/
def NotBefore (d : Option UInt64) (m : TimerManager γ ω) : Prop :=
  ∀ a t, a ∈ m.timers → m.heap a = some t → ∃ e, d = some e ∧ e.toNat ≤ t.next.toNat

/-- Every timer was started at a reading of the clock, `ms` before its time. -/
def Started (clock : UInt64) (m : TimerManager γ ω) : Prop :=
  ∀ a t, m.heap a = some t → ∃ start ≤ clock.toNat, t.next.toNat = start + t.ms.toNat

theorem Started.mono {clock now : UInt64} (h : Started clock m) (hle : clock ≤ now) :
    Started now m := by
  intro a t ht
  obtain ⟨start, hstart, hnext⟩ := h a t ht
  exact ⟨start, hstart.trans (UInt64.le_iff_toNat_le.mp hle), hnext⟩

theorem Started.update {now : UInt64} {m' : TimerManager γ ω} {a : Nat} {t : Timer γ ω}
    (h : Started now m) (hheap : m'.heap = Function.update m.heap a (some t)) {start : Nat}
    (hstart : start ≤ now.toNat) (hnext : t.next.toNat = start + t.ms.toNat) :
    Started now m' := by
  intro b u hu
  rw [hheap] at hu
  by_cases hba : b = a
  · rw [hba, Function.update_self] at hu
    cases hu
    exact ⟨start, hstart, hnext⟩
  · rw [Function.update_of_ne hba] at hu
    exact h b u hu

theorem toNat_add_of_lt {x y : UInt64} (h : x.toNat + y.toNat < 2 ^ 64) :
    (x + y).toNat = x.toNat + y.toNat := by
  rw [UInt64.toNat_add, Nat.mod_eq_of_lt h]

/-- The front of a set is one of its earliest timers. -/
theorem next_head_le (h : Inv m) {a b : Nat} {t u : Timer γ ω} (hb : m.timers.head? = some b)
    (ha : a ∈ m.timers) (ht : m.heap a = some t) (hu : m.heap b = some u) :
    u.next.toNat ≤ t.next.toNat := by
  cases hl : m.timers with
  | nil =>
    rw [hl] at ha
    cases ha
  | cons c rest =>
    rw [hl] at ha hb
    cases hb
    rcases List.mem_cons.mp ha with rfl | ha
    · rw [ht] at hu
      cases hu
      exact le_refl _
    · have hpair := timers_pairwise h
      rw [hl] at hpair
      have := (List.pairwise_cons.mp hpair).1 a ha u t hu ht
      omega

/-- A timer put into the set elsewhere than at the front is not due before the deadline. -/
theorem NotBefore.rearm {d : Option UInt64} (h : Inv m) (hd : NotBefore d m) {a : Nat}
    (t : Timer γ ω) (hhead : (m.rearm a t).timers.head? ≠ some a) : NotBefore d (m.rearm a t) := by
  have hinv := rearm_inv h a t
  have hself : a ∈ (m.rearm a t).timers := (mem_rearm h a t).mpr (.inl rfl)
  have hold : ∀ b u, b ≠ a → b ∈ (m.rearm a t).timers → (m.rearm a t).heap b = some u →
      ∃ e, d = some e ∧ e.toNat ≤ u.next.toNat := by
    intro b u hba hb hu
    rw [rearm_heap, Function.update_of_ne hba] at hu
    exact hd b u (((mem_rearm h a t).mp hb).resolve_left hba) hu
  intro b u hb hu
  by_cases hba : b = a
  · -- the front of the set is another timer, and not later
    obtain ⟨c, hc⟩ : ∃ c, (m.rearm a t).timers.head? = some c := by
      cases hl : (m.rearm a t).timers with
      | nil =>
        rw [hl] at hself
        cases hself
      | cons c rest => exact ⟨c, rfl⟩
    have hca : c ≠ a := by
      rintro rfl
      exact hhead hc
    have hmem : c ∈ (m.rearm a t).timers := List.mem_of_head? hc
    obtain ⟨v, hv⟩ := Option.ne_none_iff_exists'.mp (hinv.alive c hmem)
    obtain ⟨e, he, hle⟩ := hold c v hca hmem hv
    exact ⟨e, he, hle.trans (next_head_le hinv hc hb hu hv)⟩
  · exact hold b u hba hb hu

/-- A timer put back at no earlier time. -/
theorem NotBefore.rearm_later {d : Option UInt64} (h : Inv m) (hd : NotBefore d m) {a : Nat}
    {t t' : Timer γ ω} (hmem : a ∈ m.timers) (ht : m.heap a = some t)
    (hle : t.next.toNat ≤ t'.next.toNat) : NotBefore d (m.rearm a t') := by
  intro b u hb hu
  rw [rearm_heap] at hu
  by_cases hba : b = a
  · rw [hba, Function.update_self] at hu
    cases hu
    obtain ⟨e, he, hle'⟩ := hd a t hmem ht
    exact ⟨e, he, hle'.trans hle⟩
  · rw [Function.update_of_ne hba] at hu
    exact hd b u (((mem_rearm h a t').mp hb).resolve_left hba) hu

/-! ## The invariant -/

/-- What a call other than `getNextTimer` may do to the flag: nothing, and then no timer gets before
a deadline, or set it and decide on a notification. -/
def Moves (d : Option UInt64) (m m' : TimerManager γ ω) : Prop :=
  (m'.tickled = m.tickled ∧ m'.frontCalls = m.frontCalls ∧
      (m.tickled = false → NotBefore d m → NotBefore d m')) ∨
    (m'.tickled = true ∧ m'.frontCalls = m.frontCalls + 1)

/-- `addTimer (val, lock)` says so when the timer is at the front. -/
theorem notifyFront_moves {d : Option UInt64} (h : Inv m) (a : Nat) (t : Timer γ ω) :
    Moves d m ((m.rearm a t).notifyFront a) := by
  unfold notifyFront
  split
  · exact .inr ⟨rfl, rfl⟩
  · rename_i hfront
    refine .inl ⟨rfl, rfl, ?_⟩
    intro hflag hd
    exact hd.rearm h t fun hhead => hfront ⟨hhead, hflag⟩

theorem cancel_moves {d : Option UInt64} (h : Inv m) (a : Nat) (t : Timer γ ω) :
    Moves d m { m.setTimer a { t with cb := none } with timers := m.timers.erase a } := by
  refine .inl ⟨rfl, rfl, ?_⟩
  intro _ hd b u hb hu
  have hmem : b ∈ m.timers := List.mem_of_mem_erase hb
  by_cases hba : b = a
  · -- the cancelled timer has left the set
    rw [hba] at hb
    exact absurd hb h.nodup.not_mem_erase
  · change Function.update m.heap a _ b = some u at hu
    rw [Function.update_of_ne hba] at hu
    exact hd b u hmem hu

theorem listExpiredCb_moves {d : Option UInt64} {m' : TimerManager γ ω} {now : UInt64}
    {probe : Nat} (h : Inv m) (hp : m.heap probe = none) (hfits : m.Fits (.listExpiredCb now probe))
    (hheap : ∀ a, m'.heap a =
      (m.heap a).map fun t => if a ∈ m.expired now probe then afterExpiry now t else t)
    (htim : ∀ a ∈ m'.timers, a ∈ m.timers) (htick : m'.tickled = m.tickled)
    (hcalls : m'.frontCalls = m.frontCalls) : Moves d m m' := by
  refine .inl ⟨htick, hcalls, ?_⟩
  intro _ hd a u ha hu
  have hmem := htim a ha
  obtain ⟨t, ht⟩ := Option.ne_none_iff_exists'.mp (h.alive a hmem)
  rw [hheap, ht, Option.map_some] at hu
  cases hu
  obtain ⟨e, he, hle⟩ := hd a t hmem ht
  refine ⟨e, he, hle.trans ?_⟩
  -- an emitted timer was due, and is armed at the reading or later
  split
  · rename_i hexp
    have hdue := isDue_of_mem_expired h hp hexp
    rw [isDue_of_heap ht] at hdue
    unfold afterExpiry
    split
    · change t.next.toNat ≤ (now + t.ms).toNat
      rw [toNat_add_of_lt (hfits a hexp t ht)]
      omega
    · exact le_refl _
  · exact le_refl _

namespace Watch

variable {w w' : Watch γ ω}

/-- Either no timer is due before the deadline seen, or the flag is set, by a notification decided
on after the look. -/
structure Inv (w : Watch γ ω) : Prop where
  inv : TimerManager.Inv w.manager
  started : Started w.clock w.manager
  looked : w.looked ≤ w.manager.frontCalls
  fresh : w.manager.tickled = true → w.looked < w.manager.frontCalls
  watched : NotBefore w.deadline w.manager ∨ w.manager.tickled = true
  kept : ∀ n, 0 < n → n ≤ w.manager.frontCalls → n ∈ w.pending ∨ n ∈ w.called

theorem init_inv : (init : Watch γ ω).Inv where
  inv := TimerManager.init_inv
  started _ _ ht := by cases ht
  looked := le_refl 0
  fresh h := by cases h
  watched := .inl fun _ _ ha => absurd ha List.not_mem_nil
  kept n hpos hle := absurd hle (Nat.not_le.mpr hpos)

/-- A notification decided on is pending from then on. -/
theorem Inv.kept_after (h : w.Inv) {op : Op γ ω} {m : TimerManager γ ω}
    (hcalls : m.frontCalls = w.manager.frontCalls ∨ m.frontCalls = w.manager.frontCalls + 1) :
    ∀ n, 0 < n → n ≤ m.frontCalls → n ∈ (w.after op m).pending ∨ n ∈ (w.after op m).called := by
  intro n hpos hle
  change n ∈ (if m.frontCalls = w.manager.frontCalls then w.pending
    else m.frontCalls :: w.pending) ∨ n ∈ w.called
  rcases hcalls with hsame | hnew
  · rw [if_pos hsame]
    exact h.kept n hpos (hsame ▸ hle)
  · rw [if_neg (by omega)]
    by_cases hn : n = m.frontCalls
    · exact .inl (hn ▸ List.mem_cons_self)
    · exact (h.kept n hpos (by omega)).imp_left (List.mem_cons_of_mem _)

theorem Inv.after_moves (h : w.Inv) {op : Op γ ω} {m : TimerManager γ ω}
    (hop : (w.after op m).deadline = w.deadline ∧ (w.after op m).looked = w.looked)
    (hinv : TimerManager.Inv m) (hstart : Started (op.reading.getD w.clock) m)
    (hmove : Moves w.deadline w.manager m) : (w.after op m).Inv := by
  obtain ⟨hdeadline, hlooked⟩ := hop
  have hold := h.looked
  -- the front is no earlier, or the watcher has been told
  rcases hmove with ⟨htick, hcalls, hlater⟩ | ⟨htick, hcalls⟩
  · refine ⟨hinv, hstart, ?_, ?_, ?_, h.kept_after (.inl hcalls)⟩
    · rw [hlooked]
      exact hcalls ▸ hold
    · intro hflag
      rw [hlooked]
      exact hcalls ▸ h.fresh (htick ▸ hflag)
    · rw [hdeadline]
      change NotBefore w.deadline m ∨ m.tickled = true
      cases hflag : w.manager.tickled with
      | true => exact .inr (htick.trans hflag)
      | false =>
        refine .inl (hlater hflag (h.watched.resolve_right ?_))
        rw [hflag]
        decide
  · refine ⟨hinv, hstart, ?_, ?_, .inr htick, h.kept_after (.inr hcalls)⟩
    · rw [hlooked]
      exact hcalls ▸ Nat.le_succ_of_le hold
    · intro _
      rw [hlooked]
      exact hcalls ▸ Nat.lt_succ_of_le hold

theorem Inv.after_getNextTimer (h : w.Inv) {now : UInt64} (hclock : w.clock ≤ now) :
    (w.after (.getNextTimer now) { w.manager with tickled := false }).Inv := by
  refine ⟨⟨h.inv.sorted, h.inv.alive⟩, h.started.mono hclock, le_refl _, ?_, .inl ?_,
    h.kept_after (.inl rfl)⟩
  · intro hflag
    cases hflag
  · intro a t ha ht
    change a ∈ w.manager.timers at ha
    change w.manager.heap a = some t at ht
    cases hl : w.manager.timers with
    | nil =>
      rw [hl] at ha
      cases ha
    | cons b rest =>
      have hhead : w.manager.timers.head? = some b := by rw [hl]; rfl
      obtain ⟨u, hu⟩ := Option.ne_none_iff_exists'.mp
        (h.inv.alive b (List.mem_of_head? hhead))
      refine ⟨u.next, ?_, next_head_le h.inv hhead ha ht hu⟩
      change w.manager.front = some u.next
      rw [front, hhead, Option.bind_some, hu]
      rfl

/-- **A step keeps the invariant.** -/
theorem step_inv {act : Act γ ω} (h : w.Inv) (hs : Step w act w') : w'.Inv := by
  cases hs with
  | @notify n hn =>
    refine ⟨h.inv, h.started, h.looked, h.fresh, h.watched, ?_⟩
    intro k hpos hle
    by_cases hkn : k = n
    · exact .inr (hkn ▸ List.mem_cons_self)
    · refine (h.kept k hpos hle).imp (fun hk => ?_) (List.mem_cons_of_mem n)
      exact (List.mem_erase_of_ne hkn).mpr hk
  | @call op m hstep hclock hfits =>
    unfold step at hstep
    split at hstep
    case isFalse => cases hstep
    case isTrue hv =>
      cases op with
      | addTimer a ms cb recurring now =>
        have ha : w.manager.heap a = none := by simpa [valid] using hv
        rw [exec, drop_ok (addTimer_eq h.inv ha ms cb recurring now)] at hstep
        cases hstep
        refine h.after_moves ⟨rfl, rfl⟩ (notifyFront_inv (rearm_inv h.inv a _) a) ?_
          (notifyFront_moves h.inv a _)
        exact (h.started.mono (hclock now rfl)).update (notifyFront_heap _ _) (le_refl _)
          (toNat_add_of_lt hfits)
      | addConditionTimer a ms cb weakCond recurring now =>
        have ha : w.manager.heap a = none := by simpa [valid] using hv
        rw [exec, addConditionTimer, drop_ok (addTimer_eq h.inv ha ms _ recurring now)] at hstep
        cases hstep
        refine h.after_moves ⟨rfl, rfl⟩ (notifyFront_inv (rearm_inv h.inv a _) a) ?_
          (notifyFront_moves h.inv a _)
        exact (h.started.mono (hclock now rfl)).update (notifyFront_heap _ _) (le_refl _)
          (toNat_add_of_lt hfits)
      | cancel a =>
        obtain ⟨t, ht⟩ := Option.isSome_iff_exists.mp (by simpa [valid] using hv)
        obtain ⟨r, hr⟩ := drop_state hstep
        rw [cancel_eq h.inv ht] at hr
        split at hr
        · split at hr
          · cases hr
            refine h.after_moves ⟨rfl, rfl⟩ (cancelled_inv h.inv a _) ?_ (cancel_moves h.inv a t)
            obtain ⟨start, hstart, hnext⟩ := h.started a t ht
            exact h.started.update rfl hstart hnext
          · cases hr
        · cases hr
          exact h.after_moves ⟨rfl, rfl⟩ h.inv h.started (.inl ⟨rfl, rfl, fun _ hd => hd⟩)
      | refresh a now =>
        obtain ⟨t, ht⟩ := Option.isSome_iff_exists.mp (by simpa [valid] using hv)
        obtain ⟨r, hr⟩ := drop_state hstep
        have hstarted := h.started.mono (hclock now rfl)
        rw [refresh_eq h.inv ht] at hr
        split at hr <;> cases hr
        · rename_i hin
          have hnext : (now + t.ms).toNat = now.toNat + t.ms.toNat :=
            toNat_add_of_lt (hfits t ht)
          refine h.after_moves ⟨rfl, rfl⟩ (rearm_inv h.inv a _) ?_ (.inl ⟨rfl, rfl, ?_⟩)
          · exact hstarted.update (rearm_heap _ _ _) (le_refl _) hnext
          · -- the timer was started before, so that its time does not get earlier
            intro _ hd
            obtain ⟨start, hstart, hold⟩ := hstarted a t ht
            refine hd.rearm_later h.inv hin.2 ht ?_
            change t.next.toNat ≤ (now + t.ms).toNat
            omega
        · exact h.after_moves ⟨rfl, rfl⟩ h.inv hstarted (.inl ⟨rfl, rfl, fun _ hd => hd⟩)
      | reset a ms fromNow now =>
        obtain ⟨t, ht⟩ := Option.isSome_iff_exists.mp (by simpa [valid] using hv)
        obtain ⟨r, hr⟩ := drop_state hstep
        have hstarted := h.started.mono (hclock now rfl)
        rw [reset_eq h.inv ht] at hr
        split at hr
        · cases hr
          exact h.after_moves ⟨rfl, rfl⟩ h.inv hstarted (.inl ⟨rfl, rfl, fun _ hd => hd⟩)
        · split at hr <;> cases hr
          · refine h.after_moves ⟨rfl, rfl⟩ (notifyFront_inv (rearm_inv h.inv a _) a) ?_
              (notifyFront_moves h.inv a _)
            have hfits : now.toNat + ms.toNat < 2 ^ 64 := hfits
            cases fromNow with
            | true =>
              exact hstarted.update (notifyFront_heap _ _) (le_refl _) (toNat_add_of_lt hfits)
            | false =>
              -- the start of the timer is `m_next - m_ms`
              obtain ⟨start, hstart, hold⟩ := hstarted a t ht
              have hsub : (t.next - t.ms).toNat = start := by
                rw [UInt64.toNat_sub_of_le _ _ (by rw [UInt64.le_iff_toNat_le]; omega)]
                omega
              refine hstarted.update (notifyFront_heap _ _) hstart ?_
              change ((t.next - t.ms) + ms).toNat = start + ms.toNat
              rw [toNat_add_of_lt (by omega), hsub]
          · exact h.after_moves ⟨rfl, rfl⟩ h.inv hstarted (.inl ⟨rfl, rfl, fun _ hd => hd⟩)
      | getNextTimer now =>
        obtain ⟨v, hv⟩ := getNextTimer_state h.inv now
        rw [exec, drop_ok hv] at hstep
        cases hstep
        exact h.after_getNextTimer (hclock now rfl)
      | listExpiredCb now probe =>
        have hp : w.manager.heap probe = none := by simpa [valid] using hv
        obtain ⟨m', hrun, hinv, hheap, htim, htick, hcalls⟩ := expireAll_spec h.inv now
          (expired_nodup h.inv now probe) fun a ha => w.manager.expired_subset now probe ha
        rw [← listExpiredCb_apply] at hrun
        rw [exec, drop_ok hrun] at hstep
        cases hstep
        have hstarted := h.started.mono (hclock now rfl)
        refine h.after_moves ⟨rfl, rfl⟩ hinv ?_
          (listExpiredCb_moves h.inv hp hfits hheap (fun a ha => ((htim a).mp ha).1) htick hcalls)
        intro a u hu
        rw [hheap, Option.map_eq_some_iff] at hu
        obtain ⟨t, ht, rfl⟩ := hu
        split
        · rename_i hexp
          unfold afterExpiry
          split
          · exact ⟨now.toNat, le_refl _, toNat_add_of_lt (hfits a hexp t ht)⟩
          · exact hstarted a t ht
        · exact hstarted a t ht

theorem reachable_inv (h : Reachable w) : w.Inv := by
  induction h with
  | init => exact init_inv
  | step _ hs ih => exact step_inv ih hs

/-- **No timer wake-up is lost.**  In every state of every interleaving, either no timer of the set
is due before the front deadline that the last `getNextTimer` saw, or `m_tickled` is set, and the
notification of the call that set it came after that `getNextTimer` and has been made or is about to
be made. -/
theorem no_lost_wakeup (w : Watch γ ω) (h : Reachable w) :
    (∀ a t, a ∈ w.manager.timers → w.manager.heap a = some t →
        ∃ d, w.deadline = some d ∧ d ≤ t.next) ∨
      (w.manager.tickled = true ∧ w.looked < w.manager.frontCalls ∧
        (w.manager.frontCalls ∈ w.pending ∨ w.manager.frontCalls ∈ w.called)) := by
  have hinv := reachable_inv h
  rcases hinv.watched with hd | hflag
  · refine .inl fun a t ha ht => ?_
    obtain ⟨d, hd, hle⟩ := hd a t ha ht
    exact ⟨d, hd, UInt64.le_iff_toNat_le.mpr hle⟩
  · have hfresh := hinv.fresh hflag
    exact .inr ⟨hflag, hfresh, hinv.kept _ (by omega) (le_refl _)⟩

/-- A timer for 50 ms is added after an idle thread has seen one for 100 ms: the notification is
pending. -/
theorem no_lost_wakeup_earlier :
    ∃ w : Watch Unit Unit, Reachable w ∧ w.deadline = some 100 ∧ w.manager.front = some 60 ∧
      (w.manager.tickled = true ∧ w.looked < w.manager.frontCalls ∧
        (w.manager.frontCalls ∈ w.pending ∨ w.manager.frontCalls ∈ w.called)) := by
  have h₁ : Reachable (init.after (.addTimer 1 100 (some (.fn ())) false 0) _) :=
    .step .init (.call (γ := Unit) (ω := Unit) rfl (by rintro _ ⟨⟩; decide)
      (show (0 : UInt64).toNat + (100 : UInt64).toNat < 2 ^ 64 by decide))
  have h₂ : Reachable (Watch.after _ (.getNextTimer 0) _) :=
    .step h₁ (.call rfl (by rintro _ ⟨⟩; decide) trivial)
  have h₃ : Reachable (Watch.after _ (.addTimer 2 50 (some (.fn ())) false 10) _) :=
    .step h₂ (.call rfl (by rintro _ ⟨⟩; decide)
      (show (10 : UInt64).toNat + (50 : UInt64).toNat < 2 ^ 64 by decide))
  refine ⟨_, h₃, rfl, rfl, (no_lost_wakeup _ h₃).resolve_left ?_⟩
  intro hno
  obtain ⟨d, hd, hle⟩ := hno 2 _ (by decide) rfl
  cases hd
  exact absurd hle (by decide)

end Watch

end Luwu.TimerManager
