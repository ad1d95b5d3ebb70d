import Mathlib.Logic.Basic

/-!
# Programs with exceptions and faults

A call of a C++ member function ends in one of three ways.  It returns; it throws, and the caller
that catches the exception goes on with the state the call left behind; or it runs into undefined
behaviour or a failed assertion, after which the program has no state to speak of.  `Prog` is the
state monad with these three endings; `Keeps` and `Faults` have their rules for composed calls.
-/

namespace Luwu.Lib

/-- The three endings of a call: `φ` are the faults, `ε` the exceptions. -/
inductive Outcome (φ ε σ α : Type) where
  | ok (a : α) (s : σ)
  | thrown (e : ε) (s : σ)
  | fault (f : φ)
deriving DecidableEq, Repr

/-- A call on an object of type `σ`. -/
def Prog (φ ε σ α : Type) := σ → Outcome φ ε σ α

namespace Outcome

variable {φ ε σ α β : Type}

/-- The state the caller goes on with; a fault leaves none. -/
def state? : Outcome φ ε σ α → Option σ
  | ok _ s => some s
  | thrown _ s => some s
  | fault _ => none

def bind (r : Outcome φ ε σ α) (f : α → σ → Outcome φ ε σ β) : Outcome φ ε σ β :=
  match r with
  | ok a s => f a s
  | thrown e s => thrown e s
  | fault x => fault x

@[simp] theorem bind_ok (a : α) (s : σ) (f : α → σ → Outcome φ ε σ β) :
    (ok a s).bind f = f a s := rfl
@[simp] theorem bind_thrown (e : ε) (s : σ) (f : α → σ → Outcome φ ε σ β) :
    (thrown e s).bind f = thrown e s := rfl
@[simp] theorem bind_fault (x : φ) (f : α → σ → Outcome φ ε σ β) :
    (fault x : Outcome φ ε σ α).bind f = fault x := rfl

@[simp] theorem state?_ok (a : α) (s : σ) : (ok a s : Outcome φ ε σ α).state? = some s := rfl
@[simp] theorem state?_thrown (e : ε) (s : σ) :
    (thrown e s : Outcome φ ε σ α).state? = some s := rfl
@[simp] theorem state?_fault (x : φ) : (fault x : Outcome φ ε σ α).state? = none := rfl

theorem state?_eq_none {r : Outcome φ ε σ α} : r.state? = none ↔ ∃ x, r = fault x := by
  cases r <;> simp

end Outcome

namespace Prog

variable {φ ε σ α β : Type}

instance : Monad (Prog φ ε σ) where
  pure a := fun s => .ok a s
  bind m f := fun s => (m s).bind fun a s' => f a s'

def throw (e : ε) : Prog φ ε σ α := fun s => .thrown e s

def crash (x : φ) : Prog φ ε σ α := fun _ => .fault x

/-- Read a component of the state. -/
def gets (f : σ → α) : Prog φ ε σ α := fun s => .ok (f s) s

def modify (f : σ → σ) : Prog φ ε σ Unit := fun s => .ok () (f s)

@[simp] theorem pure_apply (a : α) (s : σ) : (pure a : Prog φ ε σ α) s = .ok a s := rfl
@[simp] theorem bind_apply (m : Prog φ ε σ α) (f : α → Prog φ ε σ β) (s : σ) :
    (m >>= f) s = (m s).bind fun a s' => f a s' := rfl
@[simp] theorem throw_apply (e : ε) (s : σ) :
    (throw e : Prog φ ε σ α) s = .thrown e s := rfl
@[simp] theorem crash_apply (x : φ) (s : σ) :
    (crash x : Prog φ ε σ α) s = .fault x := rfl
@[simp] theorem gets_apply (f : σ → α) (s : σ) : (gets f : Prog φ ε σ α) s = .ok (f s) s := rfl
@[simp] theorem modify_apply (f : σ → σ) (s : σ) :
    (modify f : Prog φ ε σ Unit) s = .ok () (f s) := rfl

/-! ## Invariant preservation -/

/-- From a state with `P`, every state `m` leaves behind, by returning or by throwing, has `P`. -/
def Keeps (P : σ → Prop) (m : Prog φ ε σ α) : Prop :=
  ∀ s, P s → ∀ s', (m s).state? = some s' → P s'

theorem Keeps.pure {P : σ → Prop} (a : α) : Keeps P (pure a : Prog φ ε σ α) := by
  intro s hs s' h
  cases h
  exact hs

theorem Keeps.throw {P : σ → Prop} (e : ε) : Keeps P (throw e : Prog φ ε σ α) := by
  intro s hs s' h
  cases h
  exact hs

theorem Keeps.gets {P : σ → Prop} (f : σ → α) : Keeps P (gets f : Prog φ ε σ α) := by
  intro s hs s' h
  cases h
  exact hs

theorem Keeps.modify {P : σ → Prop} {f : σ → σ} (hf : ∀ s, P s → P (f s)) :
    Keeps P (modify f : Prog φ ε σ Unit) := by
  intro s hs s' h
  cases h
  exact hf s hs

/-- Both halves of a sequence keep `P`, whether the first one returns or throws. -/
theorem Keeps.bind {P : σ → Prop} {m : Prog φ ε σ α} {f : α → Prog φ ε σ β}
    (hm : Keeps P m) (hf : ∀ a, Keeps P (f a)) : Keeps P (m >>= f) := by
  intro s hs s' h
  rw [bind_apply] at h
  cases hr : m s with
  | ok a t =>
    rw [hr] at h
    exact hf a t (hm s hs t (by rw [hr]; rfl)) s' h
  | thrown e t =>
    rw [hr] at h
    exact hm s hs s' (by rw [hr]; exact h)
  | fault x =>
    rw [hr] at h
    cases h

theorem Keeps.ite {P : σ → Prop} {c : Prop} [Decidable c] {m n : Prog φ ε σ α}
    (hm : Keeps P m) (hn : Keeps P n) : Keeps P (if c then m else n) := by
  split
  · exact hm
  · exact hn

/-! ## Faults -/

/-- Run in the state `s`, the call leaves no state behind. -/
def Faults (m : Prog φ ε σ α) (s : σ) : Prop := (m s).state? = none

theorem Faults.of_ok {m : Prog φ ε σ α} {s s' : σ} {a : α} (h : m s = .ok a s') :
    ¬ Faults m s := by
  rw [Faults, h]
  exact Option.some_ne_none s'

theorem Faults.of_thrown {m : Prog φ ε σ α} {s s' : σ} {e : ε} (h : m s = .thrown e s') :
    ¬ Faults m s := by
  rw [Faults, h]
  exact Option.some_ne_none s'

theorem Faults.not_pure (a : α) (s : σ) : ¬ Faults (pure a : Prog φ ε σ α) s :=
  Faults.of_ok rfl

theorem Faults.not_gets (f : σ → α) (s : σ) : ¬ Faults (gets f : Prog φ ε σ α) s :=
  Faults.of_ok rfl

/-- A sequence faults in its first call, or in the second after the first has returned. -/
theorem Faults.bind_iff {m : Prog φ ε σ α} {f : α → Prog φ ε σ β} {s : σ} :
    Faults (m >>= f) s ↔ Faults m s ∨ ∃ a s', m s = .ok a s' ∧ Faults (f a) s' := by
  unfold Faults
  rw [bind_apply]
  cases hr : m s with
  | ok a t =>
    rw [Outcome.bind_ok]
    constructor
    · intro hf
      exact .inr ⟨a, t, rfl, hf⟩
    · rintro (hx | ⟨a', t', hat, hf⟩)
      · cases hx
      · cases hat
        exact hf
  | thrown e t => simp
  | fault x => simp

/-- After a first call that returns, what matters is the second one. -/
theorem Faults.bind_of_ok {m : Prog φ ε σ α} {f : α → Prog φ ε σ β} {s s' : σ} {a : α}
    (h : m s = .ok a s') : Faults (m >>= f) s ↔ Faults (f a) s' := by
  unfold Faults
  rw [bind_apply, h, Outcome.bind_ok]

theorem Faults.bind_of_thrown {m : Prog φ ε σ α} {f : α → Prog φ ε σ β} {s s' : σ} {e : ε}
    (h : m s = .thrown e s') : ¬ Faults (m >>= f) s := by
  have hthrow : (m >>= f) s = .thrown e s' := by rw [bind_apply, h, Outcome.bind_thrown]
  exact Faults.of_thrown hthrow

/-- What keeps the first call and the second from faulting may be an invariant of the first. -/
theorem Faults.not_bind {P : σ → Prop} {m : Prog φ ε σ α} {f : α → Prog φ ε σ β} {s : σ}
    (hs : P s) (hk : Keeps P m) (hm : ¬ Faults m s) (hf : ∀ a s', P s' → ¬ Faults (f a) s') :
    ¬ Faults (m >>= f) s := by
  rw [Faults.bind_iff]
  rintro (h | ⟨a, s', hrun, h⟩)
  · exact hm h
  · exact hf a s' (hk s hs s' (by rw [hrun]; rfl)) h

end Prog

end Luwu.Lib
