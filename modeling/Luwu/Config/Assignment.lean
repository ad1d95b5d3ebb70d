import Luwu.Config.Listeners
import Luwu.Lib.Bytes

/-!
# Setting a configuration variable from a string

`ConfigVar<T>::fromString` with no other thread at the variable: what it converts, stores, tells the
listeners and returns.
-/

namespace Luwu

open Lib

/-- What `FromStr () (val)` comes to. -/
inductive Conversion (T : Type) where
  | value (v : T)
  /-- A `std::exception` is thrown. -/
  | exception
  /-- Something else is thrown. -/
  | other

namespace Conversion

def throws {T : Type} : Conversion T → Prop
  | value _ => False
  | exception => True
  | other => True

end Conversion

namespace ConfigVar

variable {T : Type} [BEq T]

/-- `setValue`, both critical sections. -/
def setValue (c : ConfigVar T) (v : T) : ConfigVar T :=
  if v == c.val then c else { c.notify v with val := v }

/-- `fromString`: what it returns, if it does, and the variable after it. -/
def fromString (c : ConfigVar T) (conversion : Conversion T) : Option Bool × ConfigVar T :=
  match conversion with
  | .value v => (some false, c.setValue v)
  | .exception => (some false, c)
  -- no handler takes it
  | .other => (none, c)

/-! ## One call -/

/-- The value `w` is `v`, as far as `operator==` can tell. -/
def Same (v w : T) : Prop := w = v ∨ (v == w) = true

/-- The variable has the value `v`, and each listener has been called with the old and the new
value, once if they are different. -/
structure Told (c c' : ConfigVar T) (v : T) : Prop where
  stored : Same v c'.val
  once : (v == c.val) = false → ∀ k ∈ c.callbacks, c'.heard k = c.heard k ++ [(c.val, v)]
  equal : (v == c.val) = true → ∀ k, c'.heard k = c.heard k
  others : ∀ k, k ∉ c.callbacks → c'.heard k = c.heard k
  callbacks : c'.callbacks = c.callbacks

/-- What is expected of a call that turns `c` into `c'` and returns `ret`. -/
structure Reports (c c' : ConfigVar T) (conversion : Conversion T) (ret : Option Bool) : Prop where
  thrown : conversion.throws → ret = some false ∧ c' = c
  converted : ∀ v, conversion = .value v → ret = some true ∧ Told c c' v

theorem same_iff [LawfulBEq T] {v w : T} : Same v w ↔ w = v := by
  unfold Same
  rw [beq_iff_eq, eq_comm (a := v), or_self]

/-- **`setValue` stores the value and tells every listener once of a new one.** -/
theorem setValue_told (c : ConfigVar T) (v : T) : Told c (c.setValue v) v := by
  unfold setValue
  split
  · next heq =>
    constructor
    case stored => exact .inr heq
    case once =>
      intro hne
      rw [heq] at hne
      cases hne
    case equal => exact fun _ _ => rfl
    case others => exact fun _ _ => rfl
    case callbacks => rfl
  · next hne =>
    constructor
    case stored => exact .inl rfl
    case once => exact fun _ k hk => if_pos hk
    case equal => exact fun heq => absurd heq hne
    case others => exact fun k hk => if_neg hk
    case callbacks => rfl

/-- A call of `setValue` with no other one at the variable is one or two of its critical
sections. -/
theorem setValue_steps {T : Type} [DecidableEq T] (fromStr : String → Option T) (s : Calls T)
    (t : Nat) (v : T) (hidle : s.pending t = none) :
    ∃ acts s', acts <+: [.setValue t v, .assign t] ∧ runFrom (step fromStr) s acts = some s' ∧
      s'.var = s.var.setValue v ∧ s'.pending = s.pending := by
  have hfirst : step fromStr s (.setValue t v) = some (s.enter t v) := if_pos hidle
  by_cases heq : v = s.var.val
  · have hsame : s.enter t v = s := if_pos heq
    refine ⟨[.setValue t v], s, ⟨[.assign t], rfl⟩, ?_, ?_, rfl⟩
    · rw [runFrom, hfirst, hsame]
      rfl
    · rw [setValue, if_pos (by simpa using heq)]
  · have henter : s.enter t v =
        { var := s.var.notify v
          pending := Function.update s.pending t (some v)
          latest := some (t, v) } := if_neg heq
    refine ⟨[.setValue t v, .assign t], { s.enter t v with
      var := { s.var.notify v with val := v }
      pending := s.pending }, List.prefix_rfl, ?_, ?_, rfl⟩
    · have hpending : Function.update (Function.update s.pending t (some v)) t none =
          s.pending := by
        rw [Function.update_idem, ← hidle, Function.update_eq_self]
      rw [runFrom, hfirst, henter]
      simp only [Option.bind_some, runFrom, step, Function.update_self, hpending]
    · rw [setValue, if_neg (by simpa using heq)]

/-- **`fromString` reports what it has done just when the conversion throws a `std::exception`.**
When it succeeds the value and the listeners are right, and what is returned says the contrary. -/
theorem fromString_reports_iff (fromStr : Bytes → Conversion T) (c : ConfigVar T) (s : Bytes) :
    (Reports c (c.fromString (fromStr s)).2 (fromStr s) (c.fromString (fromStr s)).1 ↔
      fromStr s = .exception) ∧
    ∀ v, fromStr s = .value v →
      (c.fromString (fromStr s)).1 = some false ∧ Told c (c.fromString (fromStr s)).2 v := by
  refine ⟨⟨?_, ?_⟩, ?_⟩
  · intro h
    cases hconversion : fromStr s with
    | value v =>
      have hret := (h.converted v hconversion).1
      rw [hconversion] at hret
      cases hret
    | exception => rfl
    | other =>
      have hret := (h.thrown (hconversion ▸ trivial)).1
      rw [hconversion] at hret
      cases hret
  · intro hconversion
    rw [hconversion]
    refine ⟨fun _ => ⟨rfl, rfl⟩, ?_⟩
    rintro v ⟨⟩
  · intro v hconversion
    rw [hconversion]
    exact ⟨rfl, setValue_told c v⟩

/-- A conversion that succeeds, of a value that its listener hears of. -/
theorem fromString_denies :
    ¬ ∀ (fromStr : Bytes → Conversion Nat) (c : ConfigVar Nat) (s : Bytes),
      Reports c (c.fromString (fromStr s)).2 (fromStr s) (c.fromString (fromStr s)).1 := by
  intro h
  have hreports := h (fun s => .value s.length) { val := 0, callbacks := [1], callbackId := 1 }
    (ascii "12")
  have hret := (hreports.converted 2 rfl).1
  cases hret

end ConfigVar

end Luwu
