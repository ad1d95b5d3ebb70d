import Mathlib.Data.List.Basic

/-!
# Code that calls back

A C function that is given callbacks runs up to its next callback, and how it goes on depends on
what the callback returns.  `Inter` is such a run: it returns, it leaves early through an exit, or
it calls back and continues with the answer.  The code itself cannot see what a callback does to
the data of its owner.  `run` puts the code together with a handler that owns such data; `follow`
is the code on its own, when every callback gives the same answer.  The two agree as long as the
handler gives that answer (`run_of_answers`).
-/

namespace Luwu.Lib

/-- `ω` are the callbacks with what they are given, `ρ` their answers, `ε` the exits and `σ` the
state of the code. -/
inductive Inter (ω ρ ε σ α : Type) where
  | ret (a : α) (s : σ)
  | exit (e : ε) (s : σ)
  | call (q : ω) (k : ρ → Inter ω ρ ε σ α)

/-- Code that runs in a state. -/
def InterM (ω ρ ε σ α : Type) := σ → Inter ω ρ ε σ α

namespace Inter

variable {ω ρ ε ε' σ τ α β : Type}

def bind : Inter ω ρ ε σ α → (α → σ → Inter ω ρ ε σ β) → Inter ω ρ ε σ β
  | ret a s, f => f a s
  | exit e s, _ => exit e s
  | call q k, f => call q fun r => (k r).bind f

/-- The same code inside a caller that numbers its exits differently. -/
def mapExit (g : ε → ε') : Inter ω ρ ε σ α → Inter ω ρ ε' σ α
  | ret a s => ret a s
  | exit e s => exit (g e) s
  | call q k => call q fun r => (k r).mapExit g

/-- The callbacks made and the ending, when every callback answers `a`. -/
def follow (a : ρ) : Inter ω ρ ε σ α → List ω × Except (ε × σ) (α × σ)
  | ret x s => ([], .ok (x, s))
  | exit e s => ([], .error (e, s))
  | call q k => (q :: ((k a).follow a).1, ((k a).follow a).2)

/-- The ending, with the callbacks answered by the handler `h` of data of type `τ`. -/
def run (h : ω → τ → ρ × τ) : Inter ω ρ ε σ α → τ → Except (ε × σ) (α × σ) × τ
  | ret x s, t => (.ok (x, s), t)
  | exit e s, t => (.error (e, s), t)
  | call q k, t => (k (h q t).1).run h (h q t).2

end Inter

namespace InterM

variable {ω ρ ε ε' σ α β : Type}

instance : Monad (InterM ω ρ ε σ) where
  pure a := fun s => .ret a s
  bind m f := fun s => (m s).bind f

def exit (e : ε) : InterM ω ρ ε σ α := fun s => .exit e s

def gets (f : σ → α) : InterM ω ρ ε σ α := fun s => .ret (f s) s

def modify (f : σ → σ) : InterM ω ρ ε σ Unit := fun s => .ret () (f s)

/-- Call back with what `f` reads from the state. -/
def ask (f : σ → ω) : InterM ω ρ ε σ ρ := fun s => .call (f s) fun r => .ret r s

def mapExit (g : ε → ε') (m : InterM ω ρ ε σ α) : InterM ω ρ ε' σ α := fun s => (m s).mapExit g

@[simp] theorem pure_apply (a : α) (s : σ) : (pure a : InterM ω ρ ε σ α) s = .ret a s := rfl
@[simp] theorem bind_apply (m : InterM ω ρ ε σ α) (f : α → InterM ω ρ ε σ β) (s : σ) :
    (m >>= f) s = (m s).bind fun a s' => f a s' := rfl
@[simp] theorem exit_apply (e : ε) (s : σ) : (exit e : InterM ω ρ ε σ α) s = .exit e s := rfl
@[simp] theorem gets_apply (f : σ → α) (s : σ) :
    (gets f : InterM ω ρ ε σ α) s = .ret (f s) s := rfl
@[simp] theorem modify_apply (f : σ → σ) (s : σ) :
    (modify f : InterM ω ρ ε σ Unit) s = .ret () (f s) := rfl
@[simp] theorem ask_apply (f : σ → ω) (s : σ) :
    (ask f : InterM ω ρ ε σ ρ) s = .call (f s) fun r => .ret r s := rfl
@[simp] theorem mapExit_apply (g : ε → ε') (m : InterM ω ρ ε σ α) (s : σ) :
    m.mapExit g s = (m s).mapExit g := rfl

end InterM

namespace Inter

variable {ω ρ ε ε' σ τ α β : Type}

@[simp] theorem bind_ret (x : α) (s : σ) (f : α → σ → Inter ω ρ ε σ β) :
    (ret x s).bind f = f x s := rfl
@[simp] theorem bind_exit (e : ε) (s : σ) (f : α → σ → Inter ω ρ ε σ β) :
    (exit e s : Inter ω ρ ε σ α).bind f = exit e s := rfl
@[simp] theorem bind_call (q : ω) (k : ρ → Inter ω ρ ε σ α) (f : α → σ → Inter ω ρ ε σ β) :
    (call q k).bind f = call q fun r => (k r).bind f := rfl

theorem bind_assoc {γ : Type} (m : Inter ω ρ ε σ α) (f : α → σ → Inter ω ρ ε σ β)
    (g : β → σ → Inter ω ρ ε σ γ) : (m.bind f).bind g = m.bind fun x s => (f x s).bind g := by
  induction m with
  | ret => rfl
  | exit => rfl
  | call q k ih =>
    change call q _ = call q _
    congr 1
    ext r
    exact ih r

theorem mapExit_bind (g : ε → ε') (m : Inter ω ρ ε σ α) (f : α → σ → Inter ω ρ ε σ β) :
    (m.bind f).mapExit g = (m.mapExit g).bind fun x s => (f x s).mapExit g := by
  induction m with
  | ret => rfl
  | exit => rfl
  | call q k ih =>
    change call q _ = call q _
    congr 1
    ext r
    exact ih r

theorem mapExit_mapExit {ε'' : Type} (g : ε → ε') (g' : ε' → ε'') (m : Inter ω ρ ε σ α) :
    (m.mapExit g).mapExit g' = m.mapExit (g' ∘ g) := by
  induction m with
  | ret => rfl
  | exit => rfl
  | call q k ih =>
    change call q _ = call q _
    congr 1
    ext r
    exact ih r

@[simp] theorem follow_ret (a : ρ) (x : α) (s : σ) :
    (ret x s : Inter ω ρ ε σ α).follow a = ([], .ok (x, s)) := rfl
@[simp] theorem follow_exit (a : ρ) (e : ε) (s : σ) :
    (exit e s : Inter ω ρ ε σ α).follow a = ([], .error (e, s)) := rfl
@[simp] theorem follow_call (a : ρ) (q : ω) (k : ρ → Inter ω ρ ε σ α) :
    (call q k).follow a = (q :: ((k a).follow a).1, ((k a).follow a).2) := rfl

/-- Code that goes on after `m` makes the callbacks of `m` first. -/
theorem follow_bind_of_ok {a : ρ} {m : Inter ω ρ ε σ α} {f : α → σ → Inter ω ρ ε σ β}
    {es : List ω} {x : α} {s : σ} (h : m.follow a = (es, .ok (x, s))) :
    (m.bind f).follow a = (es ++ ((f x s).follow a).1, ((f x s).follow a).2) := by
  induction m generalizing es with
  | ret y t =>
    cases h
    rfl
  | exit e t => cases h
  | call q k ih =>
    obtain ⟨hes, hend⟩ := Prod.mk.inj h
    rw [bind_call, follow_call, ih a (Prod.ext rfl hend), ← hes]
    rfl

theorem follow_bind_of_error {a : ρ} {m : Inter ω ρ ε σ α} {f : α → σ → Inter ω ρ ε σ β}
    {es : List ω} {e : ε} {s : σ} (h : m.follow a = (es, .error (e, s))) :
    (m.bind f).follow a = (es, .error (e, s)) := by
  induction m generalizing es with
  | ret y t => cases h
  | exit e t =>
    cases h
    rfl
  | call q k ih =>
    obtain ⟨hes, hend⟩ := Prod.mk.inj h
    rw [bind_call, follow_call, ih a (Prod.ext rfl hend), ← hes]

theorem follow_mapExit (a : ρ) (g : ε → ε') (m : Inter ω ρ ε σ α) :
    (m.mapExit g).follow a =
      ((m.follow a).1, (m.follow a).2.mapError fun es => (g es.1, es.2)) := by
  induction m with
  | ret => rfl
  | exit => rfl
  | call q k ih =>
    rw [mapExit, follow_call, ih a]
    rfl

/-! ## Postconditions -/

/-- When the callbacks answer `a` and the code returns, `Q` holds of the callbacks it has made, its
result and its state. -/
def Post (a : ρ) (m : Inter ω ρ ε σ α) (Q : List ω → α → σ → Prop) : Prop :=
  match m with
  | ret x s => Q [] x s
  | exit _ _ => True
  | call q k => Post a (k a) fun es => Q (q :: es)

theorem post_iff {a : ρ} {m : Inter ω ρ ε σ α} {Q : List ω → α → σ → Prop} :
    m.Post a Q ↔ ∀ es x s, m.follow a = (es, .ok (x, s)) → Q es x s := by
  induction m generalizing Q with
  | ret y t => simp [Post]
  | exit e t => simp [Post]
  | call q k ih =>
    rw [Post, ih a, follow_call]
    constructor
    · intro hk es x s h
      obtain ⟨hes, hend⟩ := Prod.mk.inj h
      rw [← hes]
      exact hk _ x s (Prod.ext rfl hend)
    · intro hk es x s h
      apply hk
      rw [h]

theorem post_bind (a : ρ) (m : Inter ω ρ ε σ α) (f : α → σ → Inter ω ρ ε σ β)
    (Q : List ω → β → σ → Prop) :
    (m.bind f).Post a Q ↔
      m.Post a fun es x s => (f x s).Post a fun es' => Q (es ++ es') := by
  induction m generalizing Q with
  | ret => rfl
  | exit => rfl
  | call q k ih => exact ih a fun es => Q (q :: es)

/-! ## Handlers -/

/-- The data a handler holds after a list of callbacks. -/
def handled (h : ω → τ → ρ × τ) (qs : List ω) (t : τ) : τ := qs.foldl (fun t q => (h q t).2) t

/-- The handler answers each callback of the list by `a`. -/
def Answers (h : ω → τ → ρ × τ) (a : ρ) : List ω → τ → Prop
  | [], _ => True
  | q :: qs, t => (h q t).1 = a ∧ Answers h a qs (h q t).2

variable {h : ω → τ → ρ × τ} {a : ρ}

@[simp] theorem handled_nil (t : τ) : handled h [] t = t := rfl
@[simp] theorem handled_cons (q : ω) (qs : List ω) (t : τ) :
    handled h (q :: qs) t = handled h qs (h q t).2 := rfl

theorem answers_append {qs qs' : List ω} {t : τ} :
    Answers h a (qs ++ qs') t ↔ Answers h a qs t ∧ Answers h a qs' (handled h qs t) := by
  induction qs generalizing t with
  | nil => simp [Answers]
  | cons q qs ih => simp only [List.cons_append, Answers, ih, handled_cons, and_assoc]

/-- **With a handler that gives the expected answers the code takes its own course**, and the data
of the handler is what the callbacks on that course make of it. -/
theorem run_of_answers {m : Inter ω ρ ε σ α} {t : τ} (ha : Answers h a (m.follow a).1 t) :
    m.run h t = ((m.follow a).2, handled h (m.follow a).1 t) := by
  induction m generalizing t with
  | ret => rfl
  | exit => rfl
  | call q k ih =>
    obtain ⟨hq, hrest⟩ := ha
    rw [run, hq]
    exact ih a hrest

/-- The callbacks made, each with the data that its handler finds. -/
def asked (h : ω → τ → ρ × τ) : Inter ω ρ ε σ α → τ → List (ω × τ)
  | ret _ _, _ => []
  | exit _ _, _ => []
  | call q k, t => (q, t) :: (k (h q t).1).asked h (h q t).2

/-- The data `t` pass through the callbacks of a list, each of which finds what the one before has
left, and end up as `t'`. -/
def Threads (h : ω → τ → ρ × τ) : τ → List (ω × τ) → τ → Prop
  | t, [], t' => t = t'
  | t, (q, s) :: l, t' => s = t ∧ Threads h (h q t).2 l t'

/-- Two handlers side by side, of which the first one answers. -/
def pair {τ' : Type} (h : ω → τ → ρ × τ) (h' : ω → τ' → ρ × τ') (q : ω) (x : τ × τ') :
    ρ × τ × τ' :=
  ((h q x.1).1, (h q x.1).2, (h' q x.2).2)

/-- Handlers that always give the same answers cannot be told apart by the code. -/
theorem run_pair {τ' : Type} {h' : ω → τ' → ρ × τ'} (hsame : ∀ q t t', (h' q t').1 = (h q t).1)
    (m : Inter ω ρ ε σ α) (t : τ) (t' : τ') :
    m.run (pair h h') (t, t') = ((m.run h t).1, (m.run h t).2, (m.run h' t').2) ∧
      (m.run h' t').1 = (m.run h t).1 := by
  induction m generalizing t t' with
  | ret => exact ⟨rfl, rfl⟩
  | exit => exact ⟨rfl, rfl⟩
  | call q k ih =>
    obtain ⟨hpair, hsnd⟩ := ih (h q t).1 (h q t).2 (h' q t').2
    rw [run, run, run, hsame q t t']
    exact ⟨hpair, hsnd⟩

/-- What every callback preserves of the data, the run preserves. -/
theorem run_invariant {P : τ → Prop} (hP : ∀ q t, P t → P (h q t).2) (m : Inter ω ρ ε σ α) {t : τ}
    (ht : P t) : P (m.run h t).2 := by
  induction m generalizing t with
  | ret => exact ht
  | exit => exact ht
  | call q k ih => exact ih (h q t).1 (hP q t ht)

theorem run_mapExit (g : ε → ε') (m : Inter ω ρ ε σ α) (t : τ) :
    (m.mapExit g).run h t =
      ((m.run h t).1.mapError fun es => (g es.1, es.2), (m.run h t).2) := by
  induction m generalizing t with
  | ret => rfl
  | exit => rfl
  | call q k ih => exact ih (h q t).1 (h q t).2

theorem run_bind_of_ok {m : Inter ω ρ ε σ α} {f : α → σ → Inter ω ρ ε σ β} {t t' : τ} {x : α}
    {s : σ} (hm : m.run h t = (.ok (x, s), t')) : (m.bind f).run h t = (f x s).run h t' := by
  induction m generalizing t with
  | ret =>
    cases hm
    rfl
  | exit => cases hm
  | call q k ih => exact ih (h q t).1 hm

theorem run_bind_of_error {m : Inter ω ρ ε σ α} {f : α → σ → Inter ω ρ ε σ β} {t t' : τ} {e : ε}
    {s : σ} (hm : m.run h t = (.error (e, s), t')) : (m.bind f).run h t = (.error (e, s), t') := by
  induction m generalizing t with
  | ret => cases hm
  | exit =>
    cases hm
    rfl
  | call q k ih => exact ih (h q t).1 hm

end Inter

namespace InterM

variable {ω ρ ε σ α β : Type} {a : ρ} {s : σ}

/-- `Inter.Post` of code that starts in `s`. -/
def Post (a : ρ) (m : InterM ω ρ ε σ α) (s : σ) (Q : List ω → α → σ → Prop) : Prop :=
  (m s).Post a Q

@[simp] theorem post_pure (x : α) (Q : List ω → α → σ → Prop) :
    Post a (pure x : InterM ω ρ ε σ α) s Q ↔ Q [] x s := Iff.rfl
@[simp] theorem post_exit (e : ε) (Q : List ω → α → σ → Prop) :
    Post a (exit e : InterM ω ρ ε σ α) s Q ↔ True := Iff.rfl
@[simp] theorem post_gets (f : σ → α) (Q : List ω → α → σ → Prop) :
    Post a (gets f : InterM ω ρ ε σ α) s Q ↔ Q [] (f s) s := Iff.rfl
@[simp] theorem post_modify (f : σ → σ) (Q : List ω → Unit → σ → Prop) :
    Post a (modify f : InterM ω ρ ε σ Unit) s Q ↔ Q [] () (f s) := Iff.rfl
@[simp] theorem post_ask (f : σ → ω) (Q : List ω → ρ → σ → Prop) :
    Post a (ask f : InterM ω ρ ε σ ρ) s Q ↔ Q [f s] a s := Iff.rfl

@[simp] theorem post_bind (m : InterM ω ρ ε σ α) (f : α → InterM ω ρ ε σ β)
    (Q : List ω → β → σ → Prop) :
    Post a (m >>= f) s Q ↔ Post a m s fun es x s' => Post a (f x) s' fun es' => Q (es ++ es') :=
  Inter.post_bind a (m s) (fun x s' => f x s') Q

@[simp] theorem post_ite (c : Prop) [Decidable c] (m n : InterM ω ρ ε σ α)
    (Q : List ω → α → σ → Prop) :
    Post a (if c then m else n) s Q ↔ (c → Post a m s Q) ∧ (¬ c → Post a n s Q) := by
  split <;> simp_all

theorem post_iff {m : InterM ω ρ ε σ α} {Q : List ω → α → σ → Prop} :
    Post a m s Q ↔ ∀ es x s', (m s).follow a = (es, .ok (x, s')) → Q es x s' :=
  Inter.post_iff

theorem Post.mono {m : InterM ω ρ ε σ α} {Q Q' : List ω → α → σ → Prop} (h : Post a m s Q)
    (hQ : ∀ es x s', Q es x s' → Q' es x s') : Post a m s Q' := by
  rw [post_iff] at h ⊢
  intro es x s' hm
  exact hQ es x s' (h es x s' hm)

end InterM

end Luwu.Lib
