import Mathlib.Logic.Function.Basic
import Luwu.Lib.Run

/-!
# A configuration variable and its listeners

`ConfigVar<T>::setValue` has two critical sections.  Under the read lock it compares the new value
with `m_val` and calls the listeners; under the write lock it stores the value.  Between the two,
other threads may run either section of calls of their own.
-/

namespace Luwu

open Lib

/-- `ConfigVar<T>`, together with what its listeners were told. -/
structure ConfigVar (T : Type) where
  /-- `m_val`. -/
  val : T
  /-- The keys of `m_callbacks`. -/
  callbacks : List Nat := []
  /-- `s_callbackId`. -/
  callbackId : Nat := 0
  /-- The calls `on_change (old_value, new_value)` of the listener with a key, the latest one
  last. -/
  heard : Nat → List (T × T) := fun _ => []

namespace ConfigVar

variable {T : Type}

/-- The loop over `m_callbacks` in `setValue`. -/
def notify (c : ConfigVar T) (v : T) : ConfigVar T :=
  { c with heard := fun k => if k ∈ c.callbacks then c.heard k ++ [(c.val, v)] else c.heard k }

def addListener (c : ConfigVar T) : ConfigVar T :=
  let id := c.callbackId + 1
  { c with
    callbackId := id
    callbacks := if id ∈ c.callbacks then c.callbacks else c.callbacks ++ [id]
    -- the new listener has heard of nothing
    heard := Function.update c.heard id [] }

def delListener (c : ConfigVar T) (key : Nat) : ConfigVar T :=
  { c with callbacks := c.callbacks.filter (· ≠ key) }

def clearListener (c : ConfigVar T) : ConfigVar T := { c with callbacks := [] }

/-- The variable, and the calls that are between their critical sections. -/
structure Calls (T : Type) where
  var : ConfigVar T
  /-- The value that the call of a thread is about to store. -/
  pending : Nat → Option T := fun _ => none
  /-- The thread that has notified the listeners last, and of which value. -/
  latest : Option (Nat × T) := none

inductive Act (T : Type) where
  /-- `setValue (v)` by the thread `t`, up to the end of the read lock. -/
  | setValue (t : Nat) (v : T)
  /-- `fromString (s)`, likewise. -/
  | fromString (t : Nat) (s : String)
  /-- The critical section under the write lock. -/
  | assign (t : Nat)
  | addListener
  | delListener (key : Nat)
  | clearListener

/-- `setValue` up to the end of the read lock; it returns when the value is the old one. -/
def Calls.enter [DecidableEq T] (s : Calls T) (t : Nat) (v : T) : Calls T :=
  if v = s.var.val then s
  else
    { var := s.var.notify v
      pending := Function.update s.pending t (some v)
      latest := some (t, v) }

/-- A step.  `fromStr` is the conversion, with no result when it throws. -/
def step [DecidableEq T] (fromStr : String → Option T) (s : Calls T) : Act T → Option (Calls T)
  | .setValue t v => if s.pending t = none then some (s.enter t v) else none
  | .fromString t str =>
    if s.pending t = none then
      match fromStr str with
      | some v => some (s.enter t v)
      | none => some s
    else none
  | .assign t =>
    match s.pending t with
    | some v =>
      some { s with
        var := { s.var with val := v }
        pending := Function.update s.pending t none }
    | none => none
  | .addListener => some { s with var := s.var.addListener }
  | .delListener key => some { s with var := s.var.delListener key }
  | .clearListener => some { s with var := s.var.clearListener }

/-- The variable with the value `v` and some listeners, before any call. -/
def start (v : T) (callbacks : List Nat) (callbackId : Nat) : Calls T :=
  { var := { val := v, callbacks, callbackId } }

/-- The action leaves the listener `k` registered. -/
def Act.Keeps (k : Nat) : Act T → Prop
  | .delListener key => key ≠ k
  | .clearListener => False
  | _ => True

/-- The value is stored while the call that notified last has not stored its own, or it is the
value of that call. -/
def InOrder (s : Calls T) : Act T → Prop
  | .assign t => ∀ u v, s.latest = some (u, v) → s.pending u ≠ none ∨ s.pending t = some v
  | _ => True

/-- The value last passed to the listener is that of the variable. -/
def Agrees (s : Calls T) (k : Nat) : Prop :=
  ∀ old v, (s.var.heard k).getLast? = some (old, v) → v = s.var.val

/-- What a listener has heard, compared with the calls: the latest call has told it of its value,
and that value is about to be stored or it is stored. -/
structure Informed (v₀ : T) (k : Nat) (s : Calls T) : Prop where
  registered : k ∈ s.var.callbacks
  known : k ≤ s.var.callbackId
  quiet : s.latest = none → s.var.heard k = [] ∧ s.var.val = v₀ ∧ ∀ t, s.pending t = none
  told : ∀ u v, s.latest = some (u, v) → (∃ old, (s.var.heard k).getLast? = some (old, v)) ∧
    (s.pending u = some v ∨ s.pending u = none ∧ s.var.val = v)

section

variable {fromStr : String → Option T} {v₀ : T} {k : Nat} {s s' : Calls T}

theorem Informed.enter [DecidableEq T] (h : Informed v₀ k s) (t : Nat) (v : T) :
    Informed v₀ k (s.enter t v) := by
  unfold Calls.enter
  split
  · exact h
  · constructor
    case registered => exact h.registered
    case known => exact h.known
    case quiet =>
      intro hnone
      cases hnone
    case told =>
      intro u w hlatest
      cases hlatest
      refine ⟨⟨s.var.val, ?_⟩, .inl (Function.update_self ..)⟩
      simp [notify, h.registered]

theorem Informed.assign (h : Informed v₀ k s) {t : Nat} {v : T} (hv : s.pending t = some v)
    (horder : InOrder s (.assign t)) :
    Informed v₀ k { s with
      var := { s.var with val := v }, pending := Function.update s.pending t none } := by
  constructor
  case registered => exact h.registered
  case known => exact h.known
  case quiet =>
    intro hnone
    have hidle := (h.quiet hnone).2.2 t
    rw [hv] at hidle
    cases hidle
  case told =>
    intro u w hlatest
    obtain ⟨hheard, hcase⟩ := h.told u w hlatest
    refine ⟨hheard, ?_⟩
    change Function.update s.pending t none u = some w ∨
      Function.update s.pending t none u = none ∧ v = w
    by_cases hut : u = t
    · -- the latest call itself
      subst hut
      right
      rw [hv] at hcase
      refine ⟨Function.update_self .., ?_⟩
      rcases hcase with hsame | ⟨hnone, -⟩
      · exact Option.some.inj hsame
      · cases hnone
    · rw [Function.update_of_ne hut]
      rcases hcase with hpending | ⟨hdone, -⟩
      · exact .inl hpending
      · -- it has stored its value: this call has the same
        right
        have hsame := (horder u w hlatest).resolve_left (not_not.mpr hdone)
        rw [hv] at hsame
        exact ⟨hdone, Option.some.inj hsame⟩

theorem Informed.addListener (h : Informed v₀ k s) :
    Informed v₀ k { s with var := s.var.addListener } := by
  -- the new key is another one
  have hne : k ≠ s.var.callbackId + 1 := by
    have := h.known
    omega
  have hheard : s.var.addListener.heard k = s.var.heard k := Function.update_of_ne hne _ _
  constructor
  case registered =>
    change k ∈ if _ then _ else _
    split
    · exact h.registered
    · exact List.mem_append_left _ h.registered
  case known => exact Nat.le_succ_of_le h.known
  case quiet =>
    intro hnone
    change s.var.addListener.heard k = [] ∧ _
    rw [hheard]
    exact h.quiet hnone
  case told =>
    intro u v hlatest
    change (∃ old, (s.var.addListener.heard k).getLast? = some (old, v)) ∧ _
    rw [hheard]
    exact h.told u v hlatest

theorem Informed.step [DecidableEq T] (h : Informed v₀ k s) {a : Act T} (hkeeps : a.Keeps k)
    (horder : InOrder s a) (hstep : step fromStr s a = some s') : Informed v₀ k s' := by
  cases a with
  | setValue t v =>
    simp only [ConfigVar.step] at hstep
    split at hstep
    · cases hstep
      exact h.enter t v
    · cases hstep
  | fromString t str =>
    simp only [ConfigVar.step] at hstep
    split at hstep
    · split at hstep
      · next v _ =>
        cases hstep
        exact h.enter t v
      · cases hstep
        exact h
    · cases hstep
  | assign t =>
    simp only [ConfigVar.step] at hstep
    split at hstep
    · next v hv =>
      cases hstep
      -- the write lock: the order of the calls is what the condition is about
      exact h.assign hv horder
    · cases hstep
  | addListener =>
    cases hstep
    exact h.addListener
  | delListener key =>
    cases hstep
    -- another listener is deleted
    have hmem : k ∈ s.var.callbacks.filter (· ≠ key) := by
      rw [List.mem_filter]
      exact ⟨h.registered, decide_eq_true (Ne.symm hkeeps)⟩
    exact ⟨hmem, h.known, h.quiet, h.told⟩
  | clearListener => exact hkeeps.elim

theorem start_informed {callbacks : List Nat} {callbackId : Nat} (hk : k ∈ callbacks)
    (hid : k ≤ callbackId) : Informed v₀ k (start v₀ callbacks callbackId) where
  registered := hk
  known := hid
  quiet _ := ⟨rfl, rfl, fun _ => rfl⟩
  told _ _ h := by cases h

theorem Informed.agrees (h : Informed v₀ k s) (hidle : ∀ t, s.pending t = none) :
    Agrees s k ∧ (s.var.heard k = [] → s.var.val = v₀) := by
  cases hlatest : s.latest with
  | none =>
    obtain ⟨hheard, hval, -⟩ := h.quiet hlatest
    refine ⟨?_, fun _ => hval⟩
    intro old v hlast
    rw [hheard] at hlast
    cases hlast
  | some c =>
    obtain ⟨⟨old, hold⟩, hcase⟩ := h.told c.1 c.2 hlatest
    constructor
    · intro old' v hlast
      rw [hold] at hlast
      cases hlast
      rw [hidle] at hcase
      rcases hcase with hpending | ⟨-, hval⟩
      · cases hpending
      · exact hval.symm
    · intro hheard
      rw [hheard] at hold
      cases hold

end

/-- **The listeners know the value**: in every interleaving of calls in which no call stores its
value over that of a call which has notified after it, the value last passed to a listener that was
registered throughout is the value of the variable, once all calls have returned. -/
theorem listener_agrees [DecidableEq T] (fromStr : String → Option T) (v₀ : T)
    (callbacks : List Nat) (callbackId : Nat) (hid : ∀ k ∈ callbacks, k ≤ callbackId)
    (acts : List (Act T)) (s : Calls T)
    (h : runFrom (step fromStr) (start v₀ callbacks callbackId) acts = some s)
    (horder : AllSteps (step fromStr) InOrder (start v₀ callbacks callbackId) acts)
    (hidle : ∀ t, s.pending t = none) (k : Nat) (hk : k ∈ callbacks)
    (hkeeps : ∀ a ∈ acts, a.Keeps k) :
    Agrees s k ∧ (s.var.heard k = [] → s.var.val = v₀) := by
  have hinformed : Informed v₀ k s := by
    refine runFrom_guarded (G := fun s a => a.Keeps k ∧ InOrder s a) ?_ acts _ s
      (start_informed hk (hid k hk)) (horder.and_mem hkeeps) h
    intro s a s' hs hguard hstep
    exact hs.step hguard.1 hguard.2 hstep
  exact hinformed.agrees hidle

/-- Two calls that overlap, and store their values in the order in which they have notified. -/
theorem listener_agrees_overlapping :
    ∃ s, runFrom (step String.toNat?) (start 4096 [1] 1)
        [.setValue 7 1024, .setValue 8 2048, .assign 7, .assign 8] = some s ∧
      s.var.heard 1 = [(4096, 1024), (4096, 2048)] ∧ Agrees s 1 := by
  refine ⟨_, rfl, rfl, ?_⟩
  refine (listener_agrees String.toNat? 4096 [1] 1 (by decide)
    [.setValue 7 1024, .setValue 8 2048, .assign 7, .assign 8] _ rfl ?_ ?_ 1 (by decide) ?_).1
  · refine ⟨trivial, ?_⟩
    rintro _ ⟨⟩
    refine ⟨trivial, ?_⟩
    rintro _ ⟨⟩
    refine ⟨?_, ?_⟩
    · rintro _ _ ⟨⟩
      left
      decide
    rintro _ ⟨⟩
    refine ⟨?_, fun _ _ => trivial⟩
    rintro _ _ ⟨⟩
    right
    decide
  · intro t
    show Function.update (Function.update (Function.update (Function.update
      (fun _ => (none : Option Nat)) 7 (some 1024)) 8 (some 2048)) 7 none) 8 none t = none
    simp only [Function.update_apply]
    split_ifs <;> rfl
  · simp [Act.Keeps]

/-- The first of two overlapping calls stores its value last: the listener has heard of the other
one. -/
theorem overtaken_call_disagrees :
    ¬ ∀ (acts : List (Act Nat)) (s : Calls Nat), (∀ a ∈ acts, a.Keeps 1) →
      runFrom (step String.toNat?) (start 4096 [1] 1) acts = some s →
      (∀ t, s.pending t = none) → Agrees s 1 := by
  intro hall
  have hagrees := hall [.setValue 7 1024, .setValue 8 2048, .assign 8, .assign 7] _
    (by simp [Act.Keeps]) rfl ?_
  · -- the listener was told of 2048, and 1024 is stored
    have hval := hagrees 4096 2048 rfl
    exact absurd hval (by decide)
  · intro t
    show Function.update (Function.update (Function.update (Function.update
      (fun _ => (none : Option Nat)) 7 (some 1024)) 8 (some 2048)) 8 none) 7 none t = none
    simp only [Function.update_apply]
    split_ifs <;> rfl

end ConfigVar

end Luwu
