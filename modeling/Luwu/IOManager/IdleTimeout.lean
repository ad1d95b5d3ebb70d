import Mathlib.Algebra.Group.Nat.Defs
import Luwu.Timer.Basic

/-!
# The timeout of the idle threads

`idle` asks for the time to the next timer, in 64 bits, and passes `epoll_wait` an `int`.  The value
that it passes is also what it starts from when the wait was interrupted.
-/

namespace Luwu.IdleTimeout

/-- What `epoll_wait` returns, and `errno`. -/
structure Waited where
  rt : Int
  errno : Nat
deriving DecidableEq, Repr

def eintr : Nat := 4

def maxTimeout : Int32 := 3000

/-- `(int) t`. -/
def toInt (t : UInt64) : Int32 := t.toUInt32.toInt32

/-- The assignments to `next_timeout` in front of `epoll_wait`. -/
def clamp (nextTimeout : UInt64) : UInt64 :=
  if nextTimeout ≠ -1 then (min (toInt nextTimeout) maxTimeout).toInt64.toUInt64
  else maxTimeout.toInt64.toUInt64

/-- The timeouts that the inner loop passes, given what the calls of `epoll_wait` return.  The last
call may not have returned yet. -/
def waits (nextTimeout : UInt64) : List Waited → List Int32
  | [] => [toInt (clamp nextTimeout)]
  | waited :: rest =>
    toInt (clamp nextTimeout) ::
      if waited.rt < 0 ∧ waited.errno = eintr then waits (clamp nextTimeout) rest else []

/-- `stopping (timeout)`, when `getNextTimer` has returned `timeout`. -/
def stopping (timeout pendingEventCount : UInt64) (schedulerStopping : Bool) : Bool :=
  timeout = -1 && pendingEventCount = 0 && schedulerStopping

/-- The timeouts of a round of `idle`. -/
def idleTimeouts (timeout pendingEventCount : UInt64) (schedulerStopping : Bool)
    (answers : List Waited) : List Int32 :=
  if stopping timeout pendingEventCount schedulerStopping then [] else waits timeout answers

/-- The time to wait for: to the next timer, or 3 seconds when that is earlier or there is none. -/
def due (t : UInt64) : Nat := if t = -1 then 3000 else min t.toNat 3000

/-- Every timeout of a round is the time to wait for. -/
def TimeoutsRight (t : UInt64) : Prop :=
  ∀ pendingEventCount schedulerStopping answers,
    ∀ timeout ∈ idleTimeouts t pendingEventCount schedulerStopping answers,
      0 ≤ timeout.toInt ∧ timeout.toInt = due t

/-- `(int)` keeps the time, or cuts it to one of at least 3 seconds. -/
def Kept (t : UInt64) : Prop :=
  t = -1 ∨ t.toNat ≤ 3000 ∨ 3000 ≤ t.toNat % 2 ^ 32 ∧ t.toNat % 2 ^ 32 < 2 ^ 31

section

variable {t : UInt64}

theorem toInt_toInt (t : UInt64) : (toInt t).toInt = (t.toNat : Int).bmod (2 ^ 32) := by
  show t.toUInt32.toBitVec.toInt = _
  rw [BitVec.toInt_eq_toNat_bmod, UInt32.toNat_toBitVec, UInt64.toNat_toUInt32, Int.natCast_emod]
  exact Int.emod_bmod _ _

/-- The `int` comes back from the 64 bits that it was put into. -/
theorem toInt_toUInt64 (v : Int32) : toInt v.toInt64.toUInt64 = v := by
  rw [← Int32.toBitVec_inj]
  show (v.toBitVec.signExtend 64).setWidth 32 = v.toBitVec
  refine BitVec.eq_of_getLsbD_eq fun i hi => ?_
  rw [BitVec.getLsbD_setWidth, BitVec.getLsbD_signExtend, decide_eq_true hi,
    decide_eq_true (by omega), if_pos hi]
  rfl

theorem toInt_min (v w : Int32) : (min v w).toInt = min v.toInt w.toInt := by
  rw [show min v w = if v ≤ w then v else w from rfl]
  split_ifs with h
  · rw [Int.min_eq_left (Int32.le_iff_toInt_le.mp h)]
  · rw [Int32.le_iff_toInt_le] at h
    rw [Int.min_eq_right (by omega)]

theorem toInt_clamp_of_ne (ht : t ≠ -1) : (toInt (clamp t)).toInt = min (toInt t).toInt 3000 := by
  rw [clamp, if_pos ht, toInt_toUInt64, toInt_min]
  rfl

theorem toInt_clamp_none : toInt (clamp (-1)) = maxTimeout := by
  rw [clamp, if_neg (not_not.mpr rfl), toInt_toUInt64]

theorem toInt_clamp_le (t : UInt64) : (toInt (clamp t)).toInt ≤ 3000 := by
  by_cases ht : t = -1
  · rw [ht, toInt_clamp_none]
    decide
  · rw [toInt_clamp_of_ne ht]
    exact Int.min_le_right _ _

/-- A timeout that is not negative stays as it is when the wait is started again. -/
theorem toInt_clamp_clamp (h : 0 ≤ (toInt (clamp t)).toInt) :
    toInt (clamp (clamp t)) = toInt (clamp t) := by
  have hne : clamp t ≠ -1 := by
    intro hnone
    rw [hnone] at h
    exact absurd h (by decide)
  rw [← Int32.toInt_inj, toInt_clamp_of_ne hne, Int.min_eq_left (toInt_clamp_le t)]

/-- All timeouts of a round are the first one, if that is not negative. -/
theorem mem_waits {answers : List Waited} {timeout : Int32} (h : 0 ≤ (toInt (clamp t)).toInt)
    (hmem : timeout ∈ waits t answers) : timeout = toInt (clamp t) := by
  induction answers generalizing t with
  | nil => exact List.mem_singleton.mp hmem
  | cons waited answers ih =>
    rcases List.mem_cons.mp hmem with heq | hrest
    · exact heq
    · split_ifs at hrest with hagain
      · -- interrupted: the wait starts from the value that was passed
        have hsame := toInt_clamp_clamp h
        rw [← hsame]
        exact ih (hsame ▸ h) hrest
      · cases hrest

theorem first_mem (t : UInt64) : toInt (clamp t) ∈ idleTimeouts t 1 false [] := by
  rw [idleTimeouts, stopping, Bool.and_false, if_neg Bool.false_ne_true]
  exact List.mem_singleton_self _

/-- The first timeout is the time to wait for just when the cast does not spoil it. -/
theorem toInt_clamp_eq_due : (toInt (clamp t)).toInt = due t ↔ Kept t := by
  by_cases ht : t = -1
  · rw [ht, toInt_clamp_none]
    exact iff_of_true rfl (.inl rfl)
  · rw [toInt_clamp_of_ne ht, toInt_toInt, due, if_neg ht, Kept]
    rw [or_iff_right ht, Int.bmod_def]
    split_ifs <;> omega

theorem due_nonneg (t : UInt64) : (0 : Int) ≤ due t := Int.natCast_nonneg _

end

theorem timeoutsRight_of_kept {t : UInt64} (ht : Kept t) : TimeoutsRight t := by
  intro pendingEventCount schedulerStopping answers timeout hmem
  have hfirst := toInt_clamp_eq_due.mpr ht
  have hnonneg : 0 ≤ (toInt (clamp t)).toInt := by
    rw [hfirst]
    exact due_nonneg t
  rw [idleTimeouts] at hmem
  split_ifs at hmem
  · cases hmem
  · rw [mem_waits hnonneg hmem]
    exact ⟨hnonneg, hfirst⟩

/-- **The timeouts are right just when the cast of the delay to `int` keeps it**, or cuts a longer
one to 3 seconds or more. -/
theorem timeoutsRight_iff (t : UInt64) : TimeoutsRight t ↔ Kept t := by
  refine ⟨fun h => ?_, timeoutsRight_of_kept⟩
  exact toInt_clamp_eq_due.mp (h 1 false [] _ (first_mem t)).2

section

open TimerManager

variable {γ ω : Type} {m m' : TimerManager γ ω} {now t : UInt64} {a : Nat} {timer : Timer γ ω}

theorem getNextTimer_eq (hnext : getNextTimer now m = .ok t m') (hfront : m.timers.head? = some a)
    (hheap : m.heap a = some timer) : t = if timer.next ≤ now then 0 else timer.next - now := by
  cases htimers : m.timers with
  | nil =>
    rw [htimers] at hfront
    cases hfront
  | cons b rest =>
    rw [htimers] at hfront
    cases hfront
    simp only [getNextTimer, Lib.Prog.bind_apply, Lib.Prog.modify_apply, Lib.Outcome.bind_ok,
      Lib.Prog.gets_apply, id, htimers, deref, hheap] at hnext
    split_ifs at hnext ⊢ <;> cases hnext <;> rfl

/-- No wait lasts past the front of the timer set. -/
theorem sleeps_until (hnext : getNextTimer now m = .ok t m') (ht : Kept t)
    (hfront : m.timers.head? = some a) (hheap : m.heap a = some timer)
    {pendingEventCount : UInt64} {schedulerStopping : Bool} {answers : List Waited}
    {timeout : Int32}
    (hmem : timeout ∈ idleTimeouts t pendingEventCount schedulerStopping answers) :
    timeout.toInt ≤ 3000 ∧ timeout.toInt ≤ (timer.next.toNat - now.toNat : Nat) := by
  obtain ⟨-, hdue⟩ := timeoutsRight_of_kept ht _ _ _ _ hmem
  have hle : due t ≤ 3000 ∧ due t ≤ t.toNat := by
    unfold due
    split_ifs with hnone
    · rw [hnone]
      decide
    · omega
  -- the subtraction of the deadline does not wrap around, as one in the past gives 0
  have htime : t.toNat = timer.next.toNat - now.toNat := by
    rw [getNextTimer_eq hnext hfront hheap]
    split_ifs with hpast
    · rw [UInt64.le_iff_toNat_le] at hpast
      exact (Nat.sub_eq_zero_of_le hpast).symm
    · rw [UInt64.le_iff_toNat_le] at hpast
      exact UInt64.toNat_sub_of_le _ _ (UInt64.le_iff_toNat_le.mpr (by omega))
  omega

end

/-- A timer in 25 days makes the wait unbounded. -/
theorem not_timeoutsRight_far : ¬ TimeoutsRight 2147483648 := by
  intro h
  have hfirst := (h 1 false [] _ (first_mem 2147483648)).1
  exact absurd hfirst (by decide)

end Luwu.IdleTimeout
