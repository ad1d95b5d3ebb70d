import Mathlib.Data.List.Basic
import Mathlib.Data.Set.Basic

/-!
# Runs of a step function

`step s a = some s'` says that action `a` is possible in `s` and leads to `s'`.  A run is a list of
actions, each possible in the state the ones before it led to.  Invariants are proved per step and
lifted to runs here, with or without a condition that the steps of the run are known to meet.
-/

namespace Luwu.Lib

variable {σ α : Type*}

/-- The state a run leads to, `none` when one of its actions is not possible. -/
def runFrom (step : σ → α → Option σ) : σ → List α → Option σ
  | s, [] => some s
  | s, a :: as => (step s a).bind fun s' => runFrom step s' as

/-- Every step of the run meets the condition `G` in the state it starts from. -/
def AllSteps (step : σ → α → Option σ) (G : σ → α → Prop) : σ → List α → Prop
  | _, [] => True
  | s, a :: as => G s a ∧ ∀ s', step s a = some s' → AllSteps step G s' as

/-- Some step of the run meets the condition `G` in the state it starts from. -/
def SomeStep (step : σ → α → Option σ) (G : σ → α → Prop) : σ → List α → Prop
  | _, [] => False
  | s, a :: as => G s a ∨ ∃ s', step s a = some s' ∧ SomeStep step G s' as

variable {step : σ → α → Option σ} {G : σ → α → Prop}

instance decidableAllSteps [∀ s a, Decidable (G s a)] :
    ∀ (s : σ) (as : List α), Decidable (AllSteps step G s as)
  | _, [] => .isTrue trivial
  | s, a :: as =>
    have := fun s' => decidableAllSteps s' as
    inferInstanceAs (Decidable (G s a ∧ ∀ s' ∈ step s a, AllSteps step G s' as))

@[simp] theorem runFrom_nil (s : σ) : runFrom step s [] = some s := rfl

theorem runFrom_cons (s : σ) (a : α) (as : List α) :
    runFrom step s (a :: as) = (step s a).bind fun s' => runFrom step s' as := rfl

theorem runFrom_cons_some {s s' : σ} {a : α} {as : List α} :
    runFrom step s (a :: as) = some s' ↔
      ∃ t, step s a = some t ∧ runFrom step t as = some s' := by
  rw [runFrom_cons, Option.bind_eq_some_iff]

/-- What every guarded step preserves, every run of guarded steps preserves. -/
theorem runFrom_guarded {P : σ → Prop}
    (hstep : ∀ s a s', P s → G s a → step s a = some s' → P s') :
    ∀ (as : List α) (s s' : σ), P s → AllSteps step G s as → runFrom step s as = some s' → P s'
  | [], s, s', hs, _, h => by
    cases h
    exact hs
  | a :: as, s, s', hs, hg, h => by
    obtain ⟨t, ht, hrest⟩ := runFrom_cons_some.mp h
    exact runFrom_guarded hstep as t s' (hstep s a t hs hg.1 ht) (hg.2 t ht) hrest

theorem runFrom_invariant {P : σ → Prop} (hstep : ∀ s a s', P s → step s a = some s' → P s')
    {as : List α} {s s' : σ} (hs : P s) (h : runFrom step s as = some s') : P s' := by
  induction as generalizing s with
  | nil =>
    cases h
    exact hs
  | cons a as ih =>
    obtain ⟨t, ht, hrest⟩ := runFrom_cons_some.mp h
    exact ih (hstep s a t hs ht) hrest

/-- A run leads to a state when none of its actions can fail. -/
theorem runFrom_isSome_iff (ok : α → Prop) (hstep : ∀ s a, (step s a).isSome ↔ ok a)
    {as : List α} {s : σ} : (runFrom step s as).isSome ↔ ∀ a ∈ as, ok a := by
  induction as generalizing s with
  | nil => exact iff_of_true rfl fun a ha => absurd ha List.not_mem_nil
  | cons a as ih =>
    rw [runFrom_cons, List.forall_mem_cons, ← hstep s a]
    cases step s a with
    | none => exact iff_of_false (fun h => by cases h) fun h => by cases h.1
    | some t => exact ih.trans (by simp)

/-- What no action of the run changes, the run does not change. -/
theorem runFrom_keeps {β : Type*} (view : σ → β) {as : List α} {s s' : σ}
    (hkeep : ∀ a ∈ as, ∀ s s', step s a = some s' → view s' = view s)
    (h : runFrom step s as = some s') : view s' = view s := by
  induction as generalizing s with
  | nil =>
    cases h
    rfl
  | cons a as ih =>
    obtain ⟨t, ht, hrest⟩ := runFrom_cons_some.mp h
    rw [ih (fun b hb => hkeep b (List.mem_cons_of_mem a hb)) hrest,
      hkeep a List.mem_cons_self s t ht]

/-- A run in which `a` is followed by actions that do not change a view: the view is what the step
of `a` made of it. -/
theorem runFrom_at {β : Type*} (view : σ → β) {before after : List α} {a : α} {s s' : σ}
    (hkeep : ∀ b ∈ after, ∀ s s', step s b = some s' → view s' = view s)
    (h : runFrom step s (before ++ a :: after) = some s') :
    ∃ t t', step t a = some t' ∧ view s' = view t' := by
  induction before generalizing s with
  | nil =>
    obtain ⟨t', ht', hrest⟩ := runFrom_cons_some.mp h
    exact ⟨s, t', ht', runFrom_keeps view hkeep hrest⟩
  | cons b before ih =>
    obtain ⟨t, -, hrest⟩ := runFrom_cons_some.mp h
    exact ih hrest

/-- Along a run whose steps meet `G`, what `G` preserves may be used to conclude more of each
step. -/
theorem AllSteps.imp {P : σ → Prop} {G' : σ → α → Prop}
    (hstep : ∀ s a s', P s → G s a → step s a = some s' → P s')
    (himp : ∀ s a, P s → G s a → G' s a) :
    ∀ (as : List α) (s : σ), P s → AllSteps step G s as → AllSteps step G' s as
  | [], _, _, _ => trivial
  | a :: as, s, hs, hg =>
    ⟨himp s a hs hg.1, fun s' hs' =>
      AllSteps.imp hstep himp as s' (hstep s a s' hs hg.1 hs') (hg.2 s' hs')⟩

/-- Two conditions on the steps of a run, the second of which keeps an invariant under which the two
agree on the steps that are possible. -/
theorem allSteps_iff {P : σ → Prop} {A B : σ → α → Prop}
    (hiff : ∀ s a s', P s → step s a = some s' → (A s a ↔ B s a))
    (hstep : ∀ s a s', P s → B s a → step s a = some s' → P s') {as : List α} {s : σ} (hs : P s)
    (hrun : (runFrom step s as).isSome) : AllSteps step A s as ↔ AllSteps step B s as := by
  induction as generalizing s with
  | nil => exact Iff.rfl
  | cons a as ih =>
    obtain ⟨s', hs'⟩ := Option.isSome_iff_exists.mp hrun
    obtain ⟨t, ht, hrest⟩ := runFrom_cons_some.mp hs'
    have hlast : (runFrom step t as).isSome := by
      rw [hrest]
      rfl
    show (A s a ∧ _) ↔ (B s a ∧ _)
    rw [hiff s a t hs ht]
    apply and_congr_right
    intro hB
    constructor
    · intro h u hu
      rw [ht] at hu
      cases hu
      exact (ih (hstep s a t hs hB ht) hlast).mp (h t ht)
    · intro h u hu
      rw [ht] at hu
      cases hu
      exact (ih (hstep s a t hs hB ht) hlast).mpr (h t ht)

theorem allSteps_of_mem {as : List α} {s : σ} (h : ∀ a ∈ as, ∀ s, G s a) :
    AllSteps step G s as := by
  induction as generalizing s with
  | nil => trivial
  | cons a as ih =>
    refine ⟨h a List.mem_cons_self s, ?_⟩
    intro s' _
    exact ih fun b hb => h b (List.mem_cons_of_mem a hb)

theorem AllSteps.and_mem {Q : α → Prop} {as : List α} {s : σ} (h : AllSteps step G s as)
    (hQ : ∀ a ∈ as, Q a) : AllSteps step (fun s a => Q a ∧ G s a) s as := by
  induction as generalizing s with
  | nil => trivial
  | cons a as ih =>
    refine ⟨⟨hQ a List.mem_cons_self, h.1⟩, ?_⟩
    intro s' hs'
    exact ih (h.2 s' hs') fun b hb => hQ b (List.mem_cons_of_mem a hb)

/-- An invariant that speaks of what has happened so far: `E s a` are the events of a step, and
`P s F` relates a state to the set `F` of events before it. -/
theorem runFrom_history {β : Type*} {E : σ → α → Set β} {P : σ → Set β → Prop}
    (hstep : ∀ s a s' F, P s F → step s a = some s' → P s' (F ∪ E s a))
    {as : List α} {s s' : σ} {F : Set β} (hs : P s F) (h : runFrom step s as = some s') :
    P s' (F ∪ {b | SomeStep step (fun s a => b ∈ E s a) s as}) := by
  induction as generalizing s F with
  | nil =>
    cases h
    have hF : F ∪ {b | SomeStep step (fun s a => b ∈ E s a) s' []} = F := by
      ext b
      simp [SomeStep]
    rw [hF]
    exact hs
  | cons a as ih =>
    obtain ⟨t, ht, hrest⟩ := runFrom_cons_some.mp h
    have hF : F ∪ {b | SomeStep step (fun s a => b ∈ E s a) s (a :: as)} =
        (F ∪ E s a) ∪ {b | SomeStep step (fun s a => b ∈ E s a) t as} := by
      ext b
      simp [SomeStep, ht, or_assoc]
    rw [hF]
    exact ih (hstep s a t F hs ht) hrest

/-- A step that keeps a record beside the state; `next s s' a` is what the action `a` adds to the
record when it leads from `s` to `s'`. -/
def recordStep {β : Type*} (step : σ → α → Option σ) (next : σ → σ → α → β → β) (s : σ × β)
    (a : α) :
    Option (σ × β) :=
  (step s.1 a).map fun s' => (s', next s.1 s' a s.2)

theorem exists_recorded {β : Type*} {next : σ → σ → α → β → β} {as : List α} {s s' : σ}
    (h : runFrom step s as = some s') (b : β) :
    ∃ b', runFrom (recordStep step next) (s, b) as = some (s', b') := by
  induction as generalizing s b with
  | nil =>
    cases h
    exact ⟨b, rfl⟩
  | cons a as ih =>
    obtain ⟨t, ht, hrest⟩ := runFrom_cons_some.mp h
    obtain ⟨b', hb'⟩ := ih hrest (next s t a b)
    exact ⟨b', runFrom_cons_some.mpr ⟨(t, next s t a b), by rw [recordStep, ht]; rfl, hb'⟩⟩

end Luwu.Lib
