import Luwu.Lib.Interact

/-!
# The order of callbacks

An automaton over the callbacks says in which order code may call back: `next p q` is the phase
after the callback `q` in the phase `p`, and `none` where `q` may not be made.  `Obeys` says of code
that it keeps to the automaton whatever the callbacks answer.  The owner of such code may rely on
the order: an invariant of its data that depends on the phase, and that each callback preserves,
holds whenever the code is left (`Obeys.run`).
-/

namespace Luwu.Lib

namespace Inter

variable {ω ρ ε ε' σ τ α β P : Type} {next : P → ω → Option P}

/-- In the phase `p` the code only makes callbacks that `next` allows; `Q` holds of the phase where
it returns and `E` of the phase where it leaves through an exit. -/
def Obeys (next : P → ω → Option P) (E : P → ε → σ → Prop) (p : P) (m : Inter ω ρ ε σ α)
    (Q : P → α → σ → Prop) : Prop :=
  match m with
  | ret x s => Q p x s
  | exit e s => E p e s
  | call q k => ∃ p', next p q = some p' ∧ ∀ r, Obeys next E p' (k r) Q

variable {E : P → ε → σ → Prop} {p : P}

theorem Obeys.mono {m : Inter ω ρ ε σ α} {Q Q' : P → α → σ → Prop} {E' : P → ε → σ → Prop}
    (h : m.Obeys next E p Q) (hQ : ∀ p x s, Q p x s → Q' p x s)
    (hE : ∀ p e s, E p e s → E' p e s) : m.Obeys next E' p Q' := by
  induction m generalizing p with
  | ret x s => exact hQ p x s h
  | exit e s => exact hE p e s h
  | call q k ih =>
    obtain ⟨p', hp, hk⟩ := h
    exact ⟨p', hp, fun r => ih r (hk r)⟩

theorem obeys_bind (m : Inter ω ρ ε σ α) (f : α → σ → Inter ω ρ ε σ β) (Q : P → β → σ → Prop) :
    (m.bind f).Obeys next E p Q ↔ m.Obeys next E p fun p x s => (f x s).Obeys next E p Q := by
  induction m generalizing p with
  | ret x s => rfl
  | exit e s => rfl
  | call q k ih =>
    show (∃ p', _ ∧ ∀ r, ((k r).bind f).Obeys next E p' Q) ↔ _
    simp only [ih]
    rfl

theorem obeys_mapExit {E : P → ε' → σ → Prop} (g : ε → ε') (m : Inter ω ρ ε σ α)
    (Q : P → α → σ → Prop) :
    (m.mapExit g).Obeys next E p Q ↔ m.Obeys next (fun p e s => E p (g e) s) p Q := by
  induction m generalizing p with
  | ret x s => rfl
  | exit e s => rfl
  | call q k ih =>
    show (∃ p', _ ∧ ∀ r, ((k r).mapExit g).Obeys next E p' Q) ↔ _
    simp only [ih]
    rfl

/-- **What the owner may rely on**: data that follow the phase through every callback that the
automaton allows follow it through a run of the code. -/
theorem Obeys.run {m : Inter ω ρ ε σ α} {Q : P → α → σ → Prop} {h : ω → τ → ρ × τ}
    {I : P → τ → Prop} (hI : ∀ p q p' t, next p q = some p' → I p t → I p' (h q t).2)
    (hm : m.Obeys next E p Q) {t : τ} (ht : I p t) :
    ∃ p', I p' (m.run h t).2 ∧ (∀ x s, (m.run h t).1 = .ok (x, s) → Q p' x s) ∧
      ∀ e s, (m.run h t).1 = .error (e, s) → E p' e s := by
  induction m generalizing p t with
  | ret x s =>
    refine ⟨p, ht, ?_, ?_⟩
    · intro x' s' heq
      cases heq
      exact hm
    · intro e s' heq
      cases heq
  | exit e s =>
    refine ⟨p, ht, ?_, ?_⟩
    · intro x s' heq
      cases heq
    · intro e' s' heq
      cases heq
      exact hm
  | call q k ih =>
    obtain ⟨p', hp, hk⟩ := hm
    exact ih (h q t).1 (hk (h q t).1) (hI p q p' t hp ht)

end Inter

namespace InterM

variable {ω ρ ε σ α β P : Type} {next : P → ω → Option P} {E : P → ε → σ → Prop} {p : P} {s : σ}

/-- `Inter.Obeys` of code that starts in `s`. -/
def Obeys (next : P → ω → Option P) (E : P → ε → σ → Prop) (p : P) (m : InterM ω ρ ε σ α) (s : σ)
    (Q : P → α → σ → Prop) : Prop :=
  (m s).Obeys next E p Q

@[simp] theorem obeys_pure (x : α) (Q : P → α → σ → Prop) :
    Obeys next E p (pure x : InterM ω ρ ε σ α) s Q ↔ Q p x s := Iff.rfl
@[simp] theorem obeys_exit (e : ε) (Q : P → α → σ → Prop) :
    Obeys next E p (exit e : InterM ω ρ ε σ α) s Q ↔ E p e s := Iff.rfl
@[simp] theorem obeys_gets (f : σ → α) (Q : P → α → σ → Prop) :
    Obeys next E p (gets f : InterM ω ρ ε σ α) s Q ↔ Q p (f s) s := Iff.rfl
@[simp] theorem obeys_modify (f : σ → σ) (Q : P → Unit → σ → Prop) :
    Obeys next E p (modify f : InterM ω ρ ε σ Unit) s Q ↔ Q p () (f s) := Iff.rfl
@[simp] theorem obeys_ask (f : σ → ω) (Q : P → ρ → σ → Prop) :
    Obeys next E p (ask f : InterM ω ρ ε σ ρ) s Q ↔
      ∃ p', next p (f s) = some p' ∧ ∀ r, Q p' r s := Iff.rfl

@[simp] theorem obeys_bind (m : InterM ω ρ ε σ α) (f : α → InterM ω ρ ε σ β)
    (Q : P → β → σ → Prop) :
    Obeys next E p (m >>= f) s Q ↔
      Obeys next E p m s fun p x s' => Obeys next E p (f x) s' Q :=
  Inter.obeys_bind (m s) (fun x s' => f x s') Q

@[simp] theorem obeys_ite (c : Prop) [Decidable c] (m n : InterM ω ρ ε σ α)
    (Q : P → α → σ → Prop) :
    Obeys next E p (if c then m else n) s Q ↔
      (c → Obeys next E p m s Q) ∧ (¬ c → Obeys next E p n s Q) := by
  split <;> simp_all

theorem Obeys.mono {m : InterM ω ρ ε σ α} {Q Q' : P → α → σ → Prop} (h : Obeys next E p m s Q)
    (hQ : ∀ p x s, Q p x s → Q' p x s) : Obeys next E p m s Q' :=
  Inter.Obeys.mono h hQ fun _ _ _ hE => hE

end InterM

end Luwu.Lib
