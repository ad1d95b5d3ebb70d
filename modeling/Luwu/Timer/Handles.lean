import Luwu.Timer.Invariant

/-!
# Timer handles

A handle outlives the timer's time in the set: a one-shot timer that has fired is still in the
hands of the client that added it.  `refresh` and `reset` look the timer up before they erase it;
`cancel` goes by `m_cb`, which firing leaves in place.
-/

namespace Luwu.TimerManager

open Lib

variable {γ ω : Type}

/-! ## What a call does to the set -/

theorem expired_subset (m : TimerManager γ ω) (now : UInt64) (probe : Nat) {a : Nat}
    (ha : a ∈ m.expired now probe) : a ∈ m.timers := List.mem_of_mem_take ha

theorem expired_nodup {m : TimerManager γ ω} (h : Inv m) (now : UInt64) (probe : Nat) :
    (m.expired now probe).Nodup := h.nodup.sublist (List.take_sublist _ _)

theorem listExpiredCb_apply (m : TimerManager γ ω) (now : UInt64) (probe : Nat) :
    listExpiredCb now probe m = expireAll now (m.expired now probe) m := by
  simp only [listExpiredCb, Prog.bind_apply, Prog.gets_apply, Outcome.bind_ok, id_eq]
  split
  · rename_i hempty
    have hexp : m.expired now probe = [] := by simp [expired, hempty]
    rw [hexp]
    rfl
  · rfl

theorem getNextTimer_state {m : TimerManager γ ω} (h : Inv m) (now : UInt64) :
    ∃ v, getNextTimer now m = .ok v { m with tickled := false } := by
  simp only [getNextTimer, Prog.bind_apply, Prog.modify_apply, Outcome.bind_ok, Prog.gets_apply,
    id_eq]
  cases ht : m.timers with
  | nil => exact ⟨_, rfl⟩
  | cons a rest =>
    obtain ⟨t, hta⟩ := Option.ne_none_iff_exists'.mp
      (h.alive a (by rw [ht]; exact List.mem_cons_self))
    simp only [Prog.bind_apply, deref, hta, Outcome.bind_ok]
    split
    · exact ⟨_, rfl⟩
    · exact ⟨_, rfl⟩

/-- The timers whose callbacks a call hands out. -/
def expiredBy (m : TimerManager γ ω) : Op γ ω → List Nat
  | .listExpiredCb now probe => m.expired now probe
  | _ => []

/-- Everything a call can do to the timers and the set. -/
inductive Effect (m : TimerManager γ ω) : Op γ ω → TimerManager γ ω → Prop where
  /-- Nothing. -/
  | quiet {op m'} : m.expiredBy op = [] → m'.heap = m.heap → m'.timers = m.timers → Effect m op m'
  /-- A new timer. -/
  | added {op m' a t} : m.expiredBy op = [] → m.heap a = none →
      m'.heap = Function.update m.heap a (some t) →
      (∀ x, x ∈ m'.timers ↔ x = a ∨ x ∈ m.timers) → Effect m op m'
  /-- A timer of the set gets a new time. -/
  | rearmed {op m' a t t'} : m.expiredBy op = [] → m.heap a = some t → a ∈ m.timers →
      t'.recurring = t.recurring → t'.cb = t.cb →
      m'.heap = Function.update m.heap a (some t') →
      (∀ x, x ∈ m'.timers ↔ x ∈ m.timers) → Effect m op m'
  /-- A timer of the set is cancelled. -/
  | cancelled {m' a t} : m.heap a = some t → a ∈ m.timers →
      m'.heap = Function.update m.heap a (some { t with cb := none }) →
      (∀ x, x ∈ m'.timers ↔ x ∈ m.timers ∧ x ≠ a) → Effect m (.cancel a) m'
  /-- Timers fire. -/
  | fired {now probe m'} :
      (∀ a, m'.heap a =
        (m.heap a).map fun t => if a ∈ m.expired now probe then afterExpiry now t else t) →
      (∀ a, a ∈ m'.timers ↔ a ∈ m.timers ∧
        (a ∈ m.expired now probe → ∃ t, m.heap a = some t ∧ t.recurring = true)) →
      Effect m (.listExpiredCb now probe) m'

theorem drop_ok {α : Type} {c : M γ ω α} {m m' : TimerManager γ ω} {r : α} (h : c m = .ok r m') :
    drop c m = .ok () m' := by
  simp only [drop, Prog.bind_apply, h, Outcome.bind_ok, Prog.pure_apply]

theorem drop_fault {α : Type} {c : M γ ω α} {m : TimerManager γ ω} {f : Fault}
    (h : c m = .fault f) : drop c m = .fault f := by
  simp only [drop, Prog.bind_apply, h, Outcome.bind_fault]

theorem addTimer_effect {m : TimerManager γ ω} (h : Inv m) (op : Op γ ω)
    (hop : m.expiredBy op = []) {a : Nat} (ha : m.heap a = none) (t : Timer γ ω) :
    Inv ((m.rearm a t).notifyFront a) ∧ Effect m op ((m.rearm a t).notifyFront a) := by
  refine ⟨notifyFront_inv (rearm_inv h a t) a, .added hop ha (notifyFront_heap _ _) ?_⟩
  intro x
  rw [notifyFront_timers]
  exact mem_rearm h a t

/-- A timer written with a new time, in the set before and after. -/
theorem rearm_effect {m m' : TimerManager γ ω} (h : Inv m) {op : Op γ ω}
    (hop : m.expiredBy op = []) {a : Nat} {t : Timer γ ω} (t' : Timer γ ω)
    (ht : m.heap a = some t) (hmem : a ∈ m.timers) (hrec : t'.recurring = t.recurring)
    (hcb : t'.cb = t.cb) (hheap : m'.heap = (m.rearm a t').heap)
    (htim : m'.timers = (m.rearm a t').timers) :
    Effect m op m' := by
  refine .rearmed hop ht hmem hrec hcb hheap ?_
  intro x
  rw [htim, mem_rearm h]
  constructor
  · rintro (rfl | hx)
    · exact hmem
    · exact hx
  · exact .inr

/-- The one call that goes wrong: `cancel` of a timer that has its callback but is not in the
set. -/
def CancelsAbsent (m : TimerManager γ ω) (op : Op γ ω) : Prop :=
  ∃ a t, op = .cancel a ∧ m.heap a = some t ∧ t.cb ≠ none ∧ a ∉ m.timers

/-- A permitted call either erases `end ()`, or has one of the effects and keeps the invariant. -/
theorem exec_cases {m : TimerManager γ ω} (h : Inv m) {op : Op γ ω} (hv : m.valid op = true) :
    (CancelsAbsent m op ∧ exec op m = .fault .eraseEnd) ∨
      (¬ CancelsAbsent m op ∧ ∃ m', exec op m = .ok () m' ∧ Inv m' ∧ Effect m op m') := by
  have hother : ∀ {op : Op γ ω}, (∀ a, op ≠ .cancel a) → ¬ CancelsAbsent m op := by
    rintro op hne ⟨a, t, rfl, -⟩
    exact hne a rfl
  cases op with
  | addTimer a ms cb recurring now =>
    have ha : m.heap a = none := by simpa [valid] using hv
    obtain ⟨hinv, heff⟩ := addTimer_effect h (.addTimer a ms cb recurring now) rfl ha
      (Timer.new ms cb recurring now)
    exact .inr ⟨hother (by simp), _, drop_ok (addTimer_eq h ha ms cb recurring now), hinv, heff⟩
  | addConditionTimer a ms cb weakCond recurring now =>
    have ha : m.heap a = none := by simpa [valid] using hv
    obtain ⟨hinv, heff⟩ := addTimer_effect h
      (.addConditionTimer a ms cb weakCond recurring now) rfl ha
      (Timer.new ms (some (.onTimer weakCond cb)) recurring now)
    exact .inr ⟨hother (by simp), _, drop_ok (addTimer_eq h ha ms _ recurring now), hinv, heff⟩
  | cancel a =>
    obtain ⟨t, ht⟩ := Option.isSome_iff_exists.mp (by simpa [valid] using hv : (m.heap a).isSome)
    have hrun := cancel_eq h ht
    -- `cancel` looks at the callback first, and only then for the timer in the set
    by_cases hcb : t.cb.isSome
    · have hne : t.cb ≠ none := Option.isSome_iff_ne_none.mp hcb
      rw [if_pos hcb] at hrun
      by_cases hmem : a ∈ m.timers
      · rw [if_pos hmem] at hrun
        refine .inr ⟨?_, _, drop_ok hrun, ?_, ?_⟩
        · rintro ⟨a', t', hop, -, -, hnot⟩
          cases hop
          exact hnot hmem
        · exact cancelled_inv h a { t with cb := none }
        · refine .cancelled ht hmem rfl ?_
          intro x
          change x ∈ m.timers.erase a ↔ _
          rw [h.nodup.mem_erase_iff, and_comm]
      · rw [if_neg hmem] at hrun
        -- the timer has fired and is not in the set any more: `erase (end ())`
        exact .inl ⟨⟨a, t, rfl, ht, hne, hmem⟩, drop_fault hrun⟩
    · rw [if_neg hcb] at hrun
      -- cancelled before, nothing happens
      refine .inr ⟨?_, m, drop_ok hrun, h, .quiet rfl rfl rfl⟩
      rintro ⟨a', t', hop, ht', hne, -⟩
      cases hop
      rw [ht] at ht'
      cases ht'
      exact hcb (Option.isSome_iff_ne_none.mpr hne)
  | refresh a now =>
    obtain ⟨t, ht⟩ := Option.isSome_iff_exists.mp (by simpa [valid] using hv : (m.heap a).isSome)
    have hrun := refresh_eq h ht now
    split at hrun
    · rename_i hin
      exact .inr ⟨hother (by simp), _, drop_ok hrun, rearm_inv h _ _,
        rearm_effect h rfl { t with next := now + t.ms } ht hin.2 rfl rfl rfl rfl⟩
    · exact .inr ⟨hother (by simp), _, drop_ok hrun, h, .quiet rfl rfl rfl⟩
  | reset a ms fromNow now =>
    obtain ⟨t, ht⟩ := Option.isSome_iff_exists.mp (by simpa [valid] using hv : (m.heap a).isSome)
    have hrun := reset_eq h ht ms fromNow now
    split at hrun
    · exact .inr ⟨hother (by simp), _, drop_ok hrun, h, .quiet rfl rfl rfl⟩
    · split at hrun
      · rename_i hin
        exact .inr ⟨hother (by simp), _, drop_ok hrun, notifyFront_inv (rearm_inv h _ _) _,
          rearm_effect h rfl
            { t with ms, next := (if fromNow then now else t.next - t.ms) + ms } ht hin.2 rfl rfl
            (notifyFront_heap _ _) (notifyFront_timers _ _)⟩
      · exact .inr ⟨hother (by simp), _, drop_ok hrun, h, .quiet rfl rfl rfl⟩
  | getNextTimer now =>
    obtain ⟨v, hrun⟩ := getNextTimer_state h now
    exact .inr ⟨hother (by simp), _, drop_ok hrun, ⟨h.sorted, h.alive⟩, .quiet rfl rfl rfl⟩
  | listExpiredCb now probe =>
    -- the timers that have expired are moved one by one
    obtain ⟨m', hrun, hinv, hheap, htim, -, -⟩ := expireAll_spec h now (expired_nodup h now probe)
      fun a ha => m.expired_subset now probe ha
    rw [← listExpiredCb_apply] at hrun
    exact .inr ⟨hother (by simp), _, drop_ok hrun, hinv, .fired hheap htim⟩

theorem step_some {m m' : TimerManager γ ω} (h : Inv m) {op : Op γ ω} (hs : step m op = some m') :
    Inv m' ∧ Effect m op m' := by
  unfold step at hs
  split at hs
  · rename_i hv
    rcases exec_cases h hv with ⟨-, hf⟩ | ⟨-, m₁, hrun, hinv, heff⟩
    · rw [hf] at hs
      cases hs
    · rw [hrun] at hs
      cases hs
      exact ⟨hinv, heff⟩
  · cases hs

/-! ## Timers outside of the set -/

/-- A timer is in the set unless it has lost its callback or is a one-shot timer that has fired;
`F` are the timers that have. -/
structure Accounted (m : TimerManager γ ω) (F : Set Nat) : Prop where
  inv : Inv m
  known : ∀ a ∈ F, m.heap a ≠ none
  absent : ∀ a t, m.heap a = some t → a ∉ m.timers →
    t.cb = none ∨ (t.recurring = false ∧ a ∈ F)
  fired : ∀ a t, m.heap a = some t → t.recurring = false → a ∈ F → a ∉ m.timers

theorem init_accounted : Accounted (init : TimerManager γ ω) ∅ where
  inv := init_inv
  known _ ha := absurd ha (Set.notMem_empty _)
  absent _ _ ht := by cases ht
  fired _ _ ht := by cases ht

theorem afterExpiry_recurring (now : UInt64) (t : Timer γ ω) :
    (afterExpiry now t).recurring = t.recurring := by
  unfold afterExpiry
  split <;> rfl

theorem afterExpiry_cb (now : UInt64) (t : Timer γ ω) : (afterExpiry now t).cb = t.cb := by
  unfold afterExpiry
  split <;> rfl

theorem effect_accounted {m m' : TimerManager γ ω} {F : Set Nat} (h : Accounted m F)
    {op : Op γ ω} (hinv : Inv m') (heff : Effect m op m') :
    Accounted m' (F ∪ {a | a ∈ m.expiredBy op}) := by
  have hnone : m.expiredBy op = [] → F ∪ {a | a ∈ m.expiredBy op} = F := by
    intro hop
    rw [hop]
    simp
  cases heff with
  | quiet hop hheap htim =>
    rw [hnone hop]
    refine ⟨hinv, ?_, ?_, ?_⟩
    · rw [hheap]
      exact h.known
    · rw [hheap, htim]
      exact h.absent
    · rw [hheap, htim]
      exact h.fired
  | @added _ _ a t hop ha hheap htim =>
    rw [hnone hop]
    have hF : a ∉ F := fun haF => h.known a haF ha
    refine ⟨hinv, ?_, ?_, ?_⟩
    · intro x hx
      have hxa : x ≠ a := fun hxa => hF (hxa ▸ hx)
      rw [hheap, Function.update_of_ne hxa]
      exact h.known x hx
    · intro x u hu hx
      rw [htim, not_or] at hx
      rw [hheap, Function.update_of_ne hx.1] at hu
      exact h.absent x u hu hx.2
    · intro x u hu hrec hx
      have hxa : x ≠ a := fun hxa => hF (hxa ▸ hx)
      rw [hheap, Function.update_of_ne hxa] at hu
      rw [htim, not_or]
      exact ⟨hxa, h.fired x u hu hrec hx⟩
  | @rearmed _ _ a t t' hop ht hmem hrec hcb hheap htim =>
    rw [hnone hop]
    refine ⟨hinv, ?_, ?_, ?_⟩
    · intro x hx
      by_cases hxa : x = a
      · rw [hheap, hxa, Function.update_self]
        simp
      · rw [hheap, Function.update_of_ne hxa]
        exact h.known x hx
    · intro x u hu hx
      rw [htim] at hx
      have hxa : x ≠ a := fun hxa => hx (hxa ▸ hmem)
      rw [hheap, Function.update_of_ne hxa] at hu
      exact h.absent x u hu hx
    · intro x u hu hurec hx
      rw [htim]
      by_cases hxa : x = a
      · subst hxa
        rw [hheap, Function.update_self] at hu
        cases hu
        exact h.fired x t ht (hrec ▸ hurec) hx
      · rw [hheap, Function.update_of_ne hxa] at hu
        exact h.fired x u hu hurec hx
  | @cancelled _ a t ht hmem hheap htim =>
    rw [hnone rfl]
    refine ⟨hinv, ?_, ?_, ?_⟩
    · intro x hx
      by_cases hxa : x = a
      · rw [hheap, hxa, Function.update_self]
        simp
      · rw [hheap, Function.update_of_ne hxa]
        exact h.known x hx
    · intro x u hu hx
      by_cases hxa : x = a
      · subst hxa
        rw [hheap, Function.update_self] at hu
        cases hu
        exact .inl rfl
      · rw [hheap, Function.update_of_ne hxa] at hu
        exact h.absent x u hu fun hc => hx ((htim x).mpr ⟨hc, hxa⟩)
    · intro x u hu hurec hx hc
      obtain ⟨hc, hxa⟩ := (htim x).mp hc
      rw [hheap, Function.update_of_ne hxa] at hu
      exact h.fired x u hu hurec hx hc
  | @fired now probe _ hheap htim =>
    -- what the timer was before the call
    have hold : ∀ {x u}, m'.heap x = some u →
        ∃ t, m.heap x = some t ∧ u.recurring = t.recurring ∧ u.cb = t.cb := by
      intro x u hu
      rw [hheap, Option.map_eq_some_iff] at hu
      obtain ⟨t, ht, rfl⟩ := hu
      refine ⟨t, ht, ?_⟩
      split
      · exact ⟨afterExpiry_recurring now t, afterExpiry_cb now t⟩
      · exact ⟨rfl, rfl⟩
    refine ⟨hinv, ?_, ?_, ?_⟩
    · intro x hx
      rw [hheap, ne_eq, Option.map_eq_none_iff]
      rcases hx with hx | hx
      · exact h.known x hx
      · exact h.inv.alive x (m.expired_subset now probe hx)
    · intro x u hu hx
      obtain ⟨t, ht, hrec, hcb⟩ := hold hu
      rw [hrec, hcb]
      by_cases hin : x ∈ m.timers
      · have hexp : ¬ (x ∈ m.expired now probe → ∃ t, m.heap x = some t ∧ t.recurring = true) :=
          fun hc => hx ((htim x).mpr ⟨hin, hc⟩)
        rw [Classical.not_imp] at hexp
        refine .inr ⟨?_, .inr hexp.1⟩
        rw [← Bool.not_eq_true]
        exact fun hc => hexp.2 ⟨t, ht, hc⟩
      · rcases h.absent x t ht hin with hnocb | ⟨hshot, hF⟩
        · exact .inl hnocb
        · exact .inr ⟨hshot, .inl hF⟩
    · intro x u hu hurec hx hc
      obtain ⟨t, ht, hrec, -⟩ := hold hu
      rw [hrec] at hurec
      obtain ⟨hc, hexp⟩ := (htim x).mp hc
      rcases hx with hx | hx
      · exact h.fired x t ht hurec hx hc
      · obtain ⟨t', ht', hrec'⟩ := hexp hx
        rw [ht] at ht'
        cases ht'
        rw [hurec] at hrec'
        cases hrec'

/-- `listExpiredCb` has handed out the callback of the timer at `a` in the course of the calls. -/
def Fired (ops : List (Op γ ω)) (a : Nat) : Prop :=
  SomeStep step (fun m op => a ∈ m.expiredBy op) init ops

theorem run_accounted {ops : List (Op γ ω)} {m : TimerManager γ ω}
    (h : runFrom step init ops = some m) : Accounted m {a | Fired ops a} := by
  have hstep : ∀ (s : TimerManager γ ω) (op : Op γ ω) (s' : TimerManager γ ω) (F : Set Nat),
      Accounted s F → step s op = some s' → Accounted s' (F ∪ {a | a ∈ s.expiredBy op}) := by
    intro s op s' F hs hrun
    obtain ⟨hinv, heff⟩ := step_some hs.inv hrun
    exact effect_accounted hs hinv heff
  have hrun := runFrom_history hstep init_accounted h
  rwa [Set.empty_union] at hrun

/-- **When `erase` gets a valid iterator.**  After any run of calls, a permitted call erases only
what is in the set, and a `cancel` of a timer outside of the set returns and leaves the set alone,
exactly when the call is not the `cancel` of a one-shot timer that has fired with its callback in
place. -/
theorem erase_valid_iff (ops : List (Op γ ω)) (m : TimerManager γ ω)
    (h : runFrom step init ops = some m) (op : Op γ ω) (hv : m.valid op = true) :
    (exec op m ≠ .fault .eraseEnd ∧
      ∀ a, op = .cancel a → a ∉ m.timers → ∃ m', exec op m = .ok () m' ∧ m'.timers = m.timers) ↔
    ∀ a t, op = .cancel a → m.heap a = some t → t.recurring = false → t.cb ≠ none →
      ¬ Fired ops a := by
  have hacc := run_accounted h
  constructor
  · rintro ⟨hno, -⟩ a t hop ht hrec hcb hfired
    rcases exec_cases hacc.inv hv with ⟨-, hf⟩ | ⟨hnot, -⟩
    · exact hno hf
    · exact hnot ⟨a, t, hop, ht, hcb, hacc.fired a t ht hrec hfired⟩
  · intro hcond
    have hnot : ¬ CancelsAbsent m op := by
      rintro ⟨a, t, hop, ht, hcb, habs⟩
      rcases hacc.absent a t ht habs with hnocb | ⟨hrec, hF⟩
      · exact hcb hnocb
      · exact hcond a t hop ht hrec hcb hF
    rcases exec_cases hacc.inv hv with ⟨hc, -⟩ | ⟨-, m', hrun, -, heff⟩
    · exact absurd hc hnot
    · refine ⟨by rw [hrun]; simp, ?_⟩
      rintro a rfl habs
      obtain ⟨t, ht⟩ := Option.isSome_iff_exists.mp (by simpa [valid] using hv)
      -- outside of the set and permitted: the timer has no callback
      have hcb : ¬ t.cb.isSome := fun hc =>
        hnot ⟨a, t, rfl, ht, Option.isSome_iff_ne_none.mp hc, habs⟩
      have hquiet := cancel_eq hacc.inv ht
      rw [if_neg hcb] at hquiet
      exact ⟨m, drop_ok hquiet, rfl⟩

/-- A timer that is cancelled before it fires, then cancelled again. -/
theorem erase_valid_cancel_twice :
    ∃ m : TimerManager Unit Unit,
      runFrom step init [.addTimer 1 10 (some (.fn ())) false 0, .cancel 1] = some m ∧
      exec (.cancel 1) m ≠ .fault .eraseEnd := by
  refine ⟨_, rfl, ((erase_valid_iff (γ := Unit) (ω := Unit)
    [.addTimer 1 10 (some (.fn ())) false 0, .cancel 1] _ rfl (.cancel 1) rfl).mpr ?_).1⟩
  intro a t hop ht _ hcb
  cases hop
  cases ht
  exact absurd rfl hcb

/-- A one-shot timer added at time 0 for 10 ms fires at 11; its `cancel` erases `end ()`. -/
theorem cancel_after_fire :
    ∃ m : TimerManager Unit Unit,
      runFrom step init [.addTimer 1 10 (some (.fn ())) false 0, .listExpiredCb 11 2] = some m ∧
      m.valid (.cancel 1) = true ∧ 1 ∉ m.timers ∧ exec (.cancel 1) m = .fault .eraseEnd :=
  ⟨_, rfl, rfl, by decide, rfl⟩

end Luwu.TimerManager
