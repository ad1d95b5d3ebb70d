import Luwu.Timer.Handles

/-!
# Which timers expire

`listExpiredCb` cuts the set at `upper_bound (now_timer)`, and the comparator breaks ties by
address.  A timer that is due at the very reading is emitted only if it lies below the temporary
`now_timer` in memory; `getNextTimer` says of the same timer that it is due.
-/

namespace Luwu.TimerManager

open Lib

variable {γ ω : Type} {m : TimerManager γ ω} {now : UInt64} {probe : Nat}

/-- The timer at `a` is due: `m_next <= now`. -/
def isDue (m : TimerManager γ ω) (now : UInt64) (a : Nat) : Bool :=
  match m.heap a with
  | none => false
  | some t => t.next ≤ now

def callback (m : TimerManager γ ω) (a : Nat) : Option (Callback γ ω) := (m.heap a).bind (·.cb)

/-! ## The cut -/

/-- The comparison of the probe with a timer of the set. -/
theorem lt_probe (hp : m.heap probe = none) {a : Nat} {t : Timer γ ω} (ht : m.heap a = some t) :
    (m.setTimer probe { next := now }).lt probe a = true ↔
      now.toNat < t.next.toNat ∨ now.toNat = t.next.toNat ∧ probe < a := by
  have hne : a ≠ probe := by
    rintro rfl
    rw [ht] at hp
    cases hp
  have ha : (m.setTimer probe { next := now }).heap a = some t := by
    change Function.update m.heap probe _ a = some t
    rw [Function.update_of_ne hne, ht]
  rw [lt, ha, setTimer_heap_self, Option.map_some, Option.map_some, comparator_some]

/-- The emitted timers are a part of the set that keeps its order. -/
theorem expired_eq_filter (h : Inv m) (hp : m.heap probe = none) :
    m.expired now probe =
      m.timers.filter fun a => !(m.setTimer probe { next := now }).lt probe a := by
  have hnot : probe ∉ m.timers := fun hmem => h.alive probe hmem hp
  have hsorted : OrderedSet.Sorted (m.setTimer probe { next := now }).lt m.timers :=
    (h.setTimer hnot { next := now }).sorted
  exact OrderedSet.take_upperBound hsorted comparator_trans

/-- A timer is emitted when it is due before the reading, or at the reading and below the probe. -/
theorem mem_expired (h : Inv m) (hp : m.heap probe = none) {a : Nat} {t : Timer γ ω}
    (ha : a ∈ m.timers) (ht : m.heap a = some t) :
    a ∈ m.expired now probe ↔
      t.next.toNat < now.toNat ∨ t.next.toNat = now.toNat ∧ a < probe := by
  have hne : a ≠ probe := by
    rintro rfl
    exact h.alive a ha hp
  rw [expired_eq_filter h hp, List.mem_filter, Bool.not_eq_true', ← Bool.not_eq_true,
    lt_probe hp ht]
  simp only [ha, true_and]
  omega

theorem isDue_of_heap {a : Nat} {t : Timer γ ω} (ht : m.heap a = some t) :
    m.isDue now a = true ↔ t.next.toNat ≤ now.toNat := by
  simp [isDue, ht, UInt64.le_iff_toNat_le]

theorem isDue_of_mem_expired (h : Inv m) (hp : m.heap probe = none) {a : Nat}
    (ha : a ∈ m.expired now probe) : m.isDue now a = true := by
  have hmem := m.expired_subset now probe ha
  obtain ⟨t, ht⟩ := Option.ne_none_iff_exists'.mp (h.alive a hmem)
  rw [isDue_of_heap ht]
  have := (mem_expired h hp hmem ht).mp ha
  omega

/-- No timer of the set is due at the very reading and above the probe. -/
def NoTieAbove (m : TimerManager γ ω) (now : UInt64) (probe : Nat) : Prop :=
  ∀ a t, a ∈ m.timers → m.heap a = some t → t.next = now → a < probe

/-- Without such ties the emitted timers are the ones that are due. -/
theorem expired_eq_due (h : Inv m) (hp : m.heap probe = none) (htie : m.NoTieAbove now probe) :
    m.expired now probe = m.timers.filter (m.isDue now) := by
  rw [expired_eq_filter h hp]
  apply List.filter_congr
  intro a ha
  obtain ⟨t, ht⟩ := Option.ne_none_iff_exists'.mp (h.alive a ha)
  have hmem : a ∈ m.expired now probe ↔ _ := mem_expired h hp ha ht
  rw [expired_eq_filter h hp, List.mem_filter] at hmem
  simp only [ha, true_and] at hmem
  rw [Bool.eq_iff_iff, hmem, isDue_of_heap ht]
  constructor
  · omega
  · intro hle
    by_cases heq : t.next = now
    · exact .inr ⟨by rw [heq], htie a t ha ht heq⟩
    · have : t.next.toNat ≠ now.toNat := fun hn => heq (UInt64.toNat.inj hn)
      omega

/-- A tie above the probe is due and not emitted, so that there are fewer emitted timers. -/
theorem length_expired_lt (h : Inv m) (hp : m.heap probe = none)
    (htie : ¬ m.NoTieAbove now probe) :
    (m.expired now probe).length < (m.timers.filter (m.isDue now)).length := by
  unfold NoTieAbove at htie
  push Not at htie
  obtain ⟨a, t, ha, ht, hnow, hle⟩ := htie
  have hnot : a ∉ m.expired now probe := by
    rw [mem_expired h hp ha ht, hnow]
    omega
  have hdue : m.isDue now a = true := by rw [isDue_of_heap ht, hnow]
  have hsub : (m.expired now probe).Sublist (m.timers.filter (m.isDue now)) := by
    have hall : ∀ b ∈ m.expired now probe, m.isDue now b = true :=
      fun b hb => isDue_of_mem_expired h hp hb
    rw [← List.filter_eq_self.mpr hall]
    exact (List.take_sublist _ _).filter _
  refine lt_of_le_of_ne hsub.length_le fun hlen => hnot ?_
  rw [hsub.eq_of_length hlen]
  exact List.mem_filter.mpr ⟨ha, hdue⟩

/-! ## The whole call -/

theorem timers_pairwise (h : Inv m) :
    m.timers.Pairwise fun a b => ∀ t u, m.heap a = some t → m.heap b = some u →
      t.next.toNat < u.next.toNat ∨ t.next.toNat = u.next.toNat ∧ a < b := by
  apply h.sorted.imp
  intro a b hab t u ht hu
  rwa [lt, ht, hu, Option.map_some, Option.map_some, comparator_some] at hab

/-- What `listExpiredCb` is for: it emits the callbacks of exactly the timers that are due, in the
order of their times, arms the recurring ones among them again and removes the others, touches
nothing else, and has something to emit exactly when `getNextTimer` says so. -/
def ExpiresExactly (m : TimerManager γ ω) (now : UInt64) (probe : Nat) : Prop :=
  ∃ cbs m', listExpiredCb now probe m = .ok cbs m' ∧
    cbs = (m.timers.filter (m.isDue now)).map m.callback ∧
    ((m.timers.filter (m.isDue now)).Pairwise fun a b => ∀ t u, m.heap a = some t →
      m.heap b = some u → t.next ≤ u.next) ∧
    (∀ a, m'.heap a = (m.heap a).map fun t =>
      if a ∈ m.timers ∧ t.next ≤ now ∧ t.recurring then { t with next := now + t.ms } else t) ∧
    (∀ a, a ∈ m'.timers ↔
      a ∈ m.timers ∧ ∀ t, m.heap a = some t → t.next ≤ now → t.recurring = true) ∧
    (cbs ≠ [] ↔ ∃ m'', getNextTimer now m = .ok 0 m'')

theorem getNextTimer_zero (h : Inv m) :
    (∃ m', getNextTimer now m = .ok 0 m') ↔ m.timers.filter (m.isDue now) ≠ [] := by
  simp only [getNextTimer, Prog.bind_apply, Prog.modify_apply, Outcome.bind_ok, Prog.gets_apply,
    id_eq]
  cases hl : m.timers with
  | nil =>
    refine iff_of_false ?_ (by simp)
    rintro ⟨m', hm'⟩
    cases hm'
  | cons a rest =>
    have hmem : a ∈ m.timers := by rw [hl]; exact List.mem_cons_self
    obtain ⟨t, ht⟩ := Option.ne_none_iff_exists'.mp (h.alive a hmem)
    simp only [Prog.bind_apply, deref, ht, Outcome.bind_ok]
    by_cases hle : t.next ≤ now
    · -- the front is due
      have hdue : m.isDue now a = true := by simpa [isDue, ht] using hle
      rw [if_pos hle, List.filter_cons_of_pos hdue]
      exact iff_of_true ⟨_, rfl⟩ (by simp)
    · rw [if_neg hle]
      refine iff_of_false ?_ ?_
      · rintro ⟨m', hm'⟩
        have hzero : t.next - now = 0 := by
          simp only [Prog.pure_apply, Outcome.ok.injEq] at hm'
          exact hm'.1
        have hsub : t.next = now := by
          rw [← UInt64.sub_add_cancel t.next now, hzero, UInt64.zero_add]
        exact hle (hsub ▸ UInt64.le_refl _)
      · -- and so is no other timer
        rw [not_not, ← hl, List.filter_eq_nil_iff]
        intro b hb hdue
        obtain ⟨u, hu⟩ := Option.ne_none_iff_exists'.mp (h.alive b hb)
        rw [isDue_of_heap hu] at hdue
        rw [UInt64.le_iff_toNat_le] at hle
        rw [hl] at hb
        rcases List.mem_cons.mp hb with rfl | hb
        · rw [ht] at hu
          cases hu
          omega
        · have hpair := timers_pairwise h
          rw [hl] at hpair
          have := (List.pairwise_cons.mp hpair).1 b hb t u ht hu
          omega

/-- **When `listExpiredCb` does what it is for**: exactly when no timer of the set is due at the
very reading and lies above the temporary `now_timer` in memory. -/
theorem expires_exactly_iff (h : Inv m) (now : UInt64) (probe : Nat) (hp : m.heap probe = none) :
    m.ExpiresExactly now probe ↔
      ∀ a t, a ∈ m.timers → m.heap a = some t → t.next = now → a < probe := by
  obtain ⟨m₁, hrun, -, hheap, htim, -, -⟩ := expireAll_spec h now (expired_nodup h now probe)
    fun a ha => m.expired_subset now probe ha
  rw [← listExpiredCb_apply] at hrun
  change _ ↔ m.NoTieAbove now probe
  constructor
  · rintro ⟨cbs, m', hrun', hcbs, -⟩
    rw [hrun] at hrun'
    cases hrun'
    -- with a tie above the temporary the list stops short of a timer that is due
    by_contra htie
    have hlen := congrArg List.length hcbs
    rw [List.length_map, List.length_map] at hlen
    exact absurd hlen (length_expired_lt h hp htie).ne
  · intro htie
    -- without one the prefix of the set is what is due
    have hexp := expired_eq_due h hp htie
    have hiff : ∀ a t, m.heap a = some t →
        (a ∈ m.expired now probe ↔ a ∈ m.timers ∧ t.next ≤ now) := by
      intro a t ht
      rw [hexp, List.mem_filter, isDue_of_heap ht, UInt64.le_iff_toNat_le]
    refine ⟨_, m₁, hrun, by rw [hexp]; rfl, ?_, ?_, ?_, ?_⟩
    · apply List.Pairwise.sublist List.filter_sublist
      apply (timers_pairwise h).imp
      intro a b hab t u ht hu
      have := hab t u ht hu
      rw [UInt64.le_iff_toNat_le]
      omega
    · intro a
      rw [hheap]
      cases ht : m.heap a with
      | none => rfl
      | some t =>
        simp only [Option.map_some, Option.some.injEq, hiff a t ht, afterExpiry, ← and_assoc]
        by_cases hc : a ∈ m.timers ∧ t.next ≤ now
        · simp only [hc, and_self, true_and, if_true]
        · simp only [hc, false_and, if_false]
    · intro a
      rw [htim]
      refine and_congr_right fun ha => ?_
      obtain ⟨t, ht⟩ := Option.ne_none_iff_exists'.mp (h.alive a ha)
      simp [hiff a t ht, ha, ht]
    · rw [getNextTimer_zero h, hexp, ne_eq, List.map_eq_nil_iff]

/-- A one-shot timer due at 10 and a recurring one due at 20, expired at 15. -/
theorem expires_exactly_between :
    ∃ m : TimerManager Unit Unit,
      runFrom step init [.addTimer 1 10 (some (.fn ())) false 0,
        .addTimer 3 20 (some (.fn ())) true 0] = some m ∧ m.ExpiresExactly 15 2 := by
  refine ⟨_, rfl, (expires_exactly_iff ?_ 15 2 rfl).mpr ?_⟩
  · have hrun : runFrom step (init : TimerManager Unit Unit)
        [.addTimer 1 10 (some (.fn ())) false 0,
        .addTimer 3 20 (some (.fn ())) true 0] = some _ := rfl
    exact (run_accounted hrun).inv
  · intro a t ha ht hnow
    have hcases : a = 1 ∨ a = 3 := by simpa using (show a ∈ [1, 3] from ha)
    rcases hcases with rfl | rfl <;> cases ht <;> cases hnow

/-- A timer due at 10 lies above the probe: at the reading 10 nothing is emitted, although
`getNextTimer` answers 0. -/
theorem expires_not_at_tie :
    ∃ m : TimerManager Unit Unit,
      runFrom step init [.addTimer 3 10 (some (.fn ())) false 0] = some m ∧
      m.valid (.listExpiredCb 10 2) = true ∧ (∃ m', getNextTimer 10 m = .ok 0 m') ∧
      ¬ m.ExpiresExactly 10 2 := by
  refine ⟨_, rfl, rfl, ⟨_, rfl⟩, ?_⟩
  rintro ⟨cbs, m', hrun, hcbs, -⟩
  cases hrun
  exact absurd hcbs (by decide)

end Luwu.TimerManager
