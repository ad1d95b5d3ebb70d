import Luwu.Timer.Basic

/-!
# The timer set

The set stays strictly sorted by `(m_next, address)`: a timer's `m_next` is only written while the
timer is outside of the set.  `cancel_eq`, `refresh_eq`, `reset_eq` and `expireAll_spec` say what
the operations do to a set that is.
-/

namespace Luwu.TimerManager

open Lib

variable {γ ω : Type}

/-! ## The order -/

theorem comparator_irrefl (x : Option (Nat × UInt64)) : Timer.comparator x x = false := by
  cases x with
  | none => rfl
  | some p => simp [Timer.comparator]

theorem comparator_some (x y : Nat × UInt64) :
    Timer.comparator (some x) (some y) = true ↔
      x.2.toNat < y.2.toNat ∨ (x.2.toNat = y.2.toNat ∧ x.1 < y.1) := by
  simp only [Timer.comparator, UInt64.lt_iff_toNat_lt]
  split
  · simp only [true_iff]
    omega
  · split
    · simp only [Bool.false_eq_true, false_iff]
      omega
    · simp only [decide_eq_true_eq]
      omega

theorem comparator_trans {x y z : Option (Nat × UInt64)} (hxy : Timer.comparator x y = true)
    (hyz : Timer.comparator y z = true) : Timer.comparator x z = true := by
  cases x with
  | none =>
    cases z with
    | none => cases y <;> cases hyz
    | some z => rfl
  | some x =>
    cases y with
    | none => cases hxy
    | some y =>
      cases z with
      | none => cases hyz
      | some z =>
        rw [comparator_some] at hxy hyz ⊢
        omega

/-- Timers are told apart by their addresses. -/
theorem lt_strictOrder (m : TimerManager γ ω) :
    OrderedSet.StrictOrder m.lt fun a => m.heap a ≠ none where
  irrefl a := comparator_irrefl _
  trans hab hbc := comparator_trans hab hbc
  total := by
    intro a b ha hb hab hba
    obtain ⟨t, ht⟩ := Option.ne_none_iff_exists'.mp ha
    obtain ⟨u, hu⟩ := Option.ne_none_iff_exists'.mp hb
    rw [lt, ht, hu, Option.map_some, Option.map_some, ← Bool.not_eq_true, comparator_some]
      at hab hba
    simp only at hab hba
    omega

theorem lt_setTimer_of_ne (m : TimerManager γ ω) (t : Timer γ ω) {a x y : Nat} (hx : x ≠ a)
    (hy : y ≠ a) : (m.setTimer a t).lt x y = m.lt x y := by
  simp only [lt, setTimer, Function.update_of_ne hx, Function.update_of_ne hy]

/-- A write that leaves `m_next` alone does not change the order. -/
theorem lt_setTimer_of_next {m : TimerManager γ ω} {t t' : Timer γ ω} {a : Nat}
    (ht : m.heap a = some t) (hn : t'.next = t.next) : (m.setTimer a t').lt = m.lt := by
  have hheap : ∀ x, ((m.setTimer a t').heap x).map (fun u => (x, u.next)) =
      (m.heap x).map fun u => (x, u.next) := by
    intro x
    by_cases hx : x = a
    · subst hx
      simp [setTimer, ht, hn]
    · simp [setTimer, Function.update_of_ne hx]
  funext x y
  simp only [lt, hheap]

/-! ## The invariant -/

structure Inv (m : TimerManager γ ω) : Prop where
  sorted : OrderedSet.Sorted m.lt m.timers
  alive : ∀ a ∈ m.timers, m.heap a ≠ none

theorem init_inv : Inv (init : TimerManager γ ω) :=
  ⟨List.Pairwise.nil, fun _ ha => absurd ha List.not_mem_nil⟩

namespace Inv

variable {m : TimerManager γ ω}

theorem nodup (h : Inv m) : m.timers.Nodup := h.sorted.nodup m.lt_strictOrder

theorem find_eq_none (h : Inv m) {a : Nat} (ha : m.heap a ≠ none) :
    m.find a = none ↔ a ∉ m.timers :=
  OrderedSet.find_eq_none m.lt_strictOrder h.sorted h.alive ha

theorem eraseIdx_find (h : Inv m) {a i : Nat} (ha : m.heap a ≠ none) (hf : m.find a = some i) :
    m.timers.eraseIdx i = m.timers.erase a :=
  OrderedSet.eraseIdx_find m.lt_strictOrder h.sorted h.alive ha hf

theorem eraseKey_eq (h : Inv m) {a : Nat} (ha : m.heap a ≠ none) :
    OrderedSet.eraseKey m.lt m.timers a = m.timers.erase a :=
  OrderedSet.eraseKey_eq m.lt_strictOrder h.sorted h.alive ha

theorem erase (h : Inv m) (a : Nat) : Inv { m with timers := m.timers.erase a } :=
  ⟨h.sorted.sublist List.erase_sublist, fun x hx => h.alive x (List.mem_of_mem_erase hx)⟩

theorem setTimer (h : Inv m) {a : Nat} (ha : a ∉ m.timers) (t : Timer γ ω) :
    Inv (m.setTimer a t) := by
  have hne : ∀ x ∈ m.timers, x ≠ a := by
    rintro x hx rfl
    exact ha hx
  refine ⟨h.sorted.congr ?_, ?_⟩
  · intro x hx y hy
    exact lt_setTimer_of_ne m t (hne x hx) (hne y hy)
  · intro x hx
    change Function.update m.heap a (some t) x ≠ none
    rw [Function.update_of_ne (hne x hx)]
    exact h.alive x hx

theorem insert (h : Inv m) {a : Nat} (ha : m.heap a ≠ none) : Inv (m.insert a) := by
  refine ⟨OrderedSet.insert_sorted_of_trans m.lt_strictOrder.trans h.sorted, ?_⟩
  intro x hx
  rcases (OrderedSet.mem_insert m.lt_strictOrder h.alive ha).mp hx with rfl | hx'
  · exact ha
  · exact h.alive x hx'

end Inv

/-! ## The operations -/

/-- Take the timer at `a` out of the set, write it and put it back. -/
def rearm (m : TimerManager γ ω) (a : Nat) (t : Timer γ ω) : TimerManager γ ω :=
  (({ m with timers := m.timers.erase a } : TimerManager γ ω).setTimer a t).insert a

@[simp] theorem rearm_heap (m : TimerManager γ ω) (a : Nat) (t : Timer γ ω) :
    (m.rearm a t).heap = Function.update m.heap a (some t) := rfl

theorem erased_inv {m : TimerManager γ ω} (h : Inv m) (a : Nat) (t : Timer γ ω) :
    Inv (({ m with timers := m.timers.erase a } : TimerManager γ ω).setTimer a t) :=
  (h.erase a).setTimer (h.nodup.not_mem_erase) t

/-- The same when the timer is written first, as `cancel` does. -/
theorem cancelled_inv {m : TimerManager γ ω} (h : Inv m) (a : Nat) (t : Timer γ ω) :
    Inv { m.setTimer a t with timers := m.timers.erase a } :=
  ⟨(erased_inv h a t).sorted, (erased_inv h a t).alive⟩

theorem setTimer_heap_self (m : TimerManager γ ω) (a : Nat) (t : Timer γ ω) :
    (m.setTimer a t).heap a = some t := Function.update_self _ _ _

theorem rearm_inv {m : TimerManager γ ω} (h : Inv m) (a : Nat) (t : Timer γ ω) :
    Inv (m.rearm a t) :=
  (erased_inv h a t).insert (by rw [setTimer_heap_self]; simp)

theorem mem_rearm {m : TimerManager γ ω} (h : Inv m) (a : Nat) (t : Timer γ ω) {x : Nat} :
    x ∈ (m.rearm a t).timers ↔ x = a ∨ x ∈ m.timers := by
  have hinv := erased_inv h a t
  have hmem := OrderedSet.mem_insert (lt_strictOrder _) hinv.alive (a := x)
    (by rw [setTimer_heap_self]; simp :
      (({ m with timers := m.timers.erase a } : TimerManager γ ω).setTimer a t).heap a ≠ none)
  refine hmem.trans ?_
  change x = a ∨ x ∈ m.timers.erase a ↔ _
  rw [h.nodup.mem_erase_iff]
  tauto

/-- `cancel` trusts `m_cb` to tell whether the timer is in the set. -/
theorem cancel_eq {m : TimerManager γ ω} (h : Inv m) {a : Nat} {t : Timer γ ω}
    (ht : m.heap a = some t) :
    cancel a m =
      if t.cb.isSome then
        if a ∈ m.timers then
          .ok true { m.setTimer a { t with cb := none } with timers := m.timers.erase a }
        else .fault .eraseEnd
      else .ok false m := by
  have ha : m.heap a ≠ none := by rw [ht]; simp
  simp only [cancel, Prog.bind_apply, deref, ht, Outcome.bind_ok]
  by_cases hcb : t.cb.isSome
  · have hlt : (m.setTimer a { t with cb := none }).lt = m.lt := lt_setTimer_of_next ht rfl
    have hfind : (m.setTimer a { t with cb := none }).find a = m.find a := by
      rw [find, hlt]
      rfl
    simp only [if_pos hcb, Prog.bind_apply, Prog.modify_apply, Outcome.bind_ok, Prog.gets_apply,
      hfind]
    by_cases hmem : a ∈ m.timers
    · obtain ⟨i, hi⟩ := Option.ne_none_iff_exists'.mp
        (mt (h.find_eq_none ha).mp (not_not_intro hmem))
      rw [hi, if_pos hmem, ← h.eraseIdx_find ha hi]
      rfl
    · rw [(h.find_eq_none ha).mpr hmem, if_neg hmem]
      rfl
  · simp only [if_neg hcb]
    rfl

theorem erase_find {m : TimerManager γ ω} (h : Inv m) {a : Nat} (ha : m.heap a ≠ none)
    (hmem : a ∈ m.timers) :
    m.find a ≠ none ∧ erase (m.find a) m = .ok () { m with timers := m.timers.erase a } := by
  have hne : m.find a ≠ none := mt (h.find_eq_none ha).mp (not_not_intro hmem)
  obtain ⟨i, hi⟩ := Option.ne_none_iff_exists'.mp hne
  refine ⟨hne, ?_⟩
  rw [hi, erase, ← h.eraseIdx_find ha hi]

theorem refresh_eq {m : TimerManager γ ω} (h : Inv m) {a : Nat} {t : Timer γ ω}
    (ht : m.heap a = some t) (now : UInt64) :
    refresh a now m =
      if t.cb.isSome ∧ a ∈ m.timers then .ok true (m.rearm a { t with next := now + t.ms })
      else .ok false m := by
  have ha : m.heap a ≠ none := by rw [ht]; simp
  simp only [refresh, Prog.bind_apply, deref, ht, Outcome.bind_ok]
  by_cases hcb : t.cb.isSome
  · by_cases hmem : a ∈ m.timers
    · obtain ⟨hne, hrun⟩ := erase_find h ha hmem
      simp only [if_pos hcb, Prog.bind_apply, Prog.gets_apply, Outcome.bind_ok, if_neg hne, hrun,
        Prog.modify_apply, Prog.pure_apply]
      rw [if_pos ⟨hcb, hmem⟩]
      rfl
    · simp only [if_pos hcb, Prog.bind_apply, Prog.gets_apply, Outcome.bind_ok,
        if_pos ((h.find_eq_none ha).mpr hmem), Prog.pure_apply]
      rw [if_neg fun hc => hmem hc.2]
  · simp only [if_neg hcb, Prog.pure_apply]
    rw [if_neg fun hc => hcb hc.1]

/-- The tail of `addTimer (val, lock)`: the flag and the notification. -/
def notifyFront (m : TimerManager γ ω) (a : Nat) : TimerManager γ ω :=
  if m.timers.head? = some a ∧ m.tickled = false then
    { m with tickled := true, frontCalls := m.frontCalls + 1 }
  else m

@[simp] theorem notifyFront_heap (m : TimerManager γ ω) (a : Nat) :
    (m.notifyFront a).heap = m.heap := by
  unfold notifyFront
  split <;> rfl

@[simp] theorem notifyFront_timers (m : TimerManager γ ω) (a : Nat) :
    (m.notifyFront a).timers = m.timers := by
  unfold notifyFront
  split <;> rfl

theorem notifyFront_inv {m : TimerManager γ ω} (h : Inv m) (a : Nat) : Inv (m.notifyFront a) := by
  unfold notifyFront
  split
  · exact ⟨h.sorted, h.alive⟩
  · exact h

theorem addTimerLocked_apply (m : TimerManager γ ω) (a : Nat) :
    addTimerLocked a m = .ok () ((m.insert a).notifyFront a) := rfl

theorem reset_eq {m : TimerManager γ ω} (h : Inv m) {a : Nat} {t : Timer γ ω}
    (ht : m.heap a = some t) (ms : UInt64) (fromNow : Bool) (now : UInt64) :
    reset a ms fromNow now m =
      if ms = t.ms ∧ fromNow = false then .ok true m
      else if t.cb.isSome ∧ a ∈ m.timers then
        .ok true ((m.rearm a { t with ms, next := (if fromNow then now else t.next - t.ms) + ms })
          |>.notifyFront a)
      else .ok false m := by
  have ha : m.heap a ≠ none := by rw [ht]; simp
  simp only [reset, Prog.bind_apply, deref, ht, Outcome.bind_ok]
  by_cases hsame : ms = t.ms ∧ fromNow = false
  · simp only [if_pos hsame, Prog.pure_apply]
  · rw [if_neg hsame, if_neg hsame]
    by_cases hcb : t.cb.isSome
    · by_cases hmem : a ∈ m.timers
      · obtain ⟨hne, hrun⟩ := erase_find h ha hmem
        simp only [if_pos hcb, Prog.bind_apply, Prog.gets_apply, Outcome.bind_ok, if_neg hne, hrun,
          Prog.modify_apply, addTimerLocked_apply, Prog.pure_apply]
        have hboth : t.cb.isSome = true ∧ a ∈ m.timers := ⟨hcb, hmem⟩
        rw [if_pos hboth]
        rfl
      · simp only [if_pos hcb, Prog.bind_apply, Prog.gets_apply, Outcome.bind_ok,
          if_pos ((h.find_eq_none ha).mpr hmem), Prog.pure_apply]
        rw [if_neg fun hc => hmem hc.2]
    · simp only [if_neg hcb, Prog.pure_apply]
      rw [if_neg fun hc => hcb hc.1]

theorem addTimer_eq {m : TimerManager γ ω} (h : Inv m) {a : Nat} (ha : m.heap a = none)
    (ms : UInt64) (cb : Option (Callback γ ω)) (recurring : Bool) (now : UInt64) :
    addTimer a ms cb recurring now m =
      .ok a ((m.rearm a (Timer.new ms cb recurring now)).notifyFront a) := by
  have hnot : a ∉ m.timers := fun hmem => h.alive a hmem ha
  simp only [addTimer, Prog.bind_apply, Prog.modify_apply, Outcome.bind_ok, addTimerLocked_apply,
    Prog.pure_apply, rearm, List.erase_of_not_mem hnot]

theorem expireOne_eq {m : TimerManager γ ω} (h : Inv m) {a : Nat} {t : Timer γ ω}
    (ht : m.heap a = some t) (now : UInt64) :
    expireOne now a m =
      .ok t.cb (if t.recurring then m.rearm a { t with next := now + t.ms }
        else { m with timers := m.timers.erase a }) := by
  have ha : m.heap a ≠ none := by rw [ht]; simp
  simp only [expireOne, Prog.bind_apply, deref, ht, Outcome.bind_ok, Prog.modify_apply,
    h.eraseKey_eq ha]
  split
  · rfl
  · rfl

/-- What the loop leaves of a timer: an expired recurring one is armed again. -/
def afterExpiry (now : UInt64) (t : Timer γ ω) : Timer γ ω :=
  if t.recurring then { t with next := now + t.ms } else t

/-- The loop of `listExpiredCb`: every expired timer gives its callback, the recurring ones are
armed again, the one-shot ones are gone from the set, and no other timer is touched. -/
theorem expireAll_spec {m : TimerManager γ ω} (h : Inv m) (now : UInt64) {as : List Nat}
    (hnd : as.Nodup) (hsub : ∀ a ∈ as, a ∈ m.timers) :
    ∃ m', expireAll now as m = .ok (as.map fun a => (m.heap a).bind (·.cb)) m' ∧ Inv m' ∧
      (∀ a, m'.heap a = (m.heap a).map fun t => if a ∈ as then afterExpiry now t else t) ∧
      (∀ a, a ∈ m'.timers ↔
        a ∈ m.timers ∧ (a ∈ as → ∃ t, m.heap a = some t ∧ t.recurring = true)) ∧
      m'.tickled = m.tickled ∧ m'.frontCalls = m.frontCalls := by
  induction as generalizing m with
  | nil =>
    refine ⟨m, rfl, h, ?_, ?_, rfl, rfl⟩
    · intro a
      simp
    · intro a
      simp
  | cons a as ih =>
    obtain ⟨ha, hnd'⟩ := List.nodup_cons.mp hnd
    have hmem : a ∈ m.timers := hsub a List.mem_cons_self
    obtain ⟨t, ht⟩ := Option.ne_none_iff_exists'.mp (h.alive a hmem)
    -- the state after the first expired timer
    obtain ⟨m₁, hm₁, hinv₁, hheap₁, htim₁, htick₁, hfront₁⟩ :
        ∃ m₁, expireOne now a m = .ok t.cb m₁ ∧ Inv m₁ ∧
          m₁.heap = Function.update m.heap a (some (afterExpiry now t)) ∧
          (∀ x, x ∈ m₁.timers ↔ x ∈ m.timers ∧ (x = a → t.recurring = true)) ∧
          m₁.tickled = m.tickled ∧ m₁.frontCalls = m.frontCalls := by
      refine ⟨_, expireOne_eq h ht now, ?_⟩
      cases hrec : t.recurring with
      | true =>
        rw [if_pos rfl]
        refine ⟨rearm_inv h _ _, ?_, ?_, rfl, rfl⟩
        · simp [afterExpiry, hrec]
        · intro x
          rw [mem_rearm h]
          constructor
          · rintro (rfl | hx)
            · exact ⟨hmem, fun _ => rfl⟩
            · exact ⟨hx, fun _ => rfl⟩
          · exact fun hx => .inr hx.1
      | false =>
        rw [if_neg (by simp)]
        refine ⟨h.erase a, ?_, ?_, rfl, rfl⟩
        · simp only [afterExpiry, hrec, Bool.false_eq_true, if_false, ← ht,
            Function.update_eq_self]
        · intro x
          change x ∈ m.timers.erase a ↔ _
          rw [h.nodup.mem_erase_iff]
          simp only [Bool.false_eq_true, imp_false]
          tauto
    have hne : ∀ x ∈ as, x ≠ a := by
      rintro x hx rfl
      exact ha hx
    have hkeep : ∀ x ∈ as, m₁.heap x = m.heap x := by
      intro x hx
      rw [hheap₁, Function.update_of_ne (hne x hx)]
    obtain ⟨m', hrun, hinv', hheap', htim', htick', hfront'⟩ := ih hinv₁ hnd' fun x hx =>
      (htim₁ x).mpr ⟨hsub x (List.mem_cons_of_mem _ hx), fun hxa => absurd hxa (hne x hx)⟩
    refine ⟨m', ?_, hinv', ?_, ?_, htick'.trans htick₁, hfront'.trans hfront₁⟩
    · have hcbs : (as.map fun x => (m₁.heap x).bind (·.cb)) =
          as.map fun x => (m.heap x).bind (·.cb) :=
        List.map_congr_left fun x hx => by rw [hkeep x hx]
      simp only [expireAll, Prog.bind_apply, hm₁, Outcome.bind_ok, hrun, Prog.pure_apply,
        List.map_cons, ht, Option.bind_some, hcbs]
    · intro x
      rw [hheap', hheap₁]
      by_cases hxa : x = a
      · subst hxa
        simp [ht, ha]
      · rw [Function.update_of_ne hxa]
        simp [hxa]
    · intro x
      rw [htim', htim₁, List.mem_cons]
      by_cases hxa : x = a
      · subst hxa
        simp [ha, ht]
      · simp only [hxa, false_imp_iff, and_true, false_or, hheap₁, Function.update_of_ne hxa]

end Luwu.TimerManager
