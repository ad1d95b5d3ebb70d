import Luwu.IOManager.ContextTable

/-!
# The descriptors known to the hooks

`FdManager` keeps an `FdContext` for each descriptor that the hooked `socket` and `accept` have
made. `get (fd, true)` looks the descriptor up under the read lock, and when there is no context
makes one under the write lock.  It does not look again under the write lock.
-/

namespace Luwu.Hook

open Lib ContextTable

/-! ## Contexts -/

def nonBlock : BitVec 32 := 0o4000#32

/-- The flags that `F_SETFL` can change: `O_APPEND`, `O_NONBLOCK`, `O_ASYNC`, `O_DIRECT` and
`O_NOATIME`. -/
def setflMask : BitVec 32 := 0o2000#32 ||| nonBlock ||| 0o20000#32 ||| 0o40000#32 ||| 0o1000000#32

/-- What the kernel knows of an open descriptor. -/
structure File where
  isSocket : Bool
  flags : BitVec 32
deriving DecidableEq, Repr

/-- `fcntl_f (fd, F_SETFL, arg)`. -/
def File.setfl (f : File) (arg : BitVec 32) : File :=
  { f with flags := (f.flags &&& ~~~setflMask) ||| (arg &&& setflMask) }

/-- The open descriptors. -/
abbrev Kernel := Nat → Option File

structure FdContext where
  isInit : Bool := false
  isSocket : Bool := false
  isSysNonBlock : Bool := false
  isUserNonBlock : Bool := false
  isClosed : Bool := false
  /-- In milliseconds; `-1` is none. -/
  recvTimeout : UInt64 := -1
  sendTimeout : UInt64 := -1
deriving DecidableEq, Repr

/-- `FdContext (fd)`, with the `init ()` it calls: a socket is made non-blocking. -/
def FdContext.new (k : Kernel) (fd : Nat) : FdContext × Kernel :=
  match k fd with
  -- `fstat` fails
  | none => ({}, k)
  | some file =>
    if file.isSocket then
      let file' :=
        if file.flags &&& nonBlock = 0#32 then file.setfl (file.flags ||| nonBlock) else file
      ({ isInit := true, isSocket := true, isSysNonBlock := true },
        Function.update k fd (some file'))
    else ({ isInit := true }, k)

/-- The options `SO_RCVTIMEO` and `SO_SNDTIMEO`. -/
inductive TimeoutOption where
  | rcvtimeo
  | sndtimeo
deriving DecidableEq, Repr

def FdContext.setTimeout (c : FdContext) (type : TimeoutOption) (v : UInt64) : FdContext :=
  match type with
  | .rcvtimeo => { c with recvTimeout := v }
  | .sndtimeo => { c with sendTimeout := v }

def FdContext.getTimeout (c : FdContext) (type : TimeoutOption) : UInt64 :=
  match type with
  | .rcvtimeo => c.recvTimeout
  | .sndtimeo => c.sendTimeout

/-! ## The table -/

structure FdManager where
  /-- `m_fds`: pointers, `none` is `nullptr`. -/
  fds : List (Option Nat)
  /-- The contexts made so far; a pointer is an index. -/
  contexts : List FdContext

namespace FdManager

def init : FdManager := { fds := List.replicate 64 none, contexts := [] }

/-- What `get (fd)` finds under the read lock. -/
def get (m : FdManager) (fd : Nat) : Option Nat := m.fds[fd]?.join

/-- What `get (fd, true)` does under the write lock, with the context it has made; no result where
the `resize` throws. -/
def create (m : FdManager) (fd : Nat) (ctx : FdContext) : Option FdManager :=
  if m.fds.length ≤ fd ∧ ¬ fits fd then none
  else
    let fds := if m.fds.length ≤ fd then resize m.fds (fd * 2) else m.fds
    some { fds := fds.set fd (some m.contexts.length), contexts := m.contexts ++ [ctx] }

def del (m : FdManager) (fd : Nat) : FdManager :=
  if m.fds.length ≤ fd then m else { m with fds := m.fds.set fd none }

/-- A setting made through the pointer `i`. -/
def modify (m : FdManager) (i : Nat) (f : FdContext → FdContext) : FdManager :=
  { m with contexts := m.contexts.modify i f }

theorem resize_fds {m : FdManager} (hpos : 0 < m.fds.length) {fd : Nat} (h : m.fds.length ≤ fd) :
    resize m.fds (fd * 2) = m.fds ++ List.replicate (fd * 2 - m.fds.length) none := by
  rw [resize, if_neg (by omega)]

theorem length_create {m m' : FdManager} (hpos : 0 < m.fds.length) {fd : Nat} {ctx : FdContext}
    (h : m.create fd ctx = some m') : m.fds.length ≤ m'.fds.length := by
  unfold create at h
  split at h
  · cases h
  · cases h
    show m.fds.length ≤ (List.set _ fd _).length
    rw [List.length_set]
    split
    · next hlen =>
      rw [resize_fds hpos hlen, List.length_append]
      omega
    · exact le_rfl

/-- The new context is the one of its descriptor; the other descriptors keep theirs. -/
theorem get_create {m m' : FdManager} (hpos : 0 < m.fds.length) {fd : Nat} {ctx : FdContext}
    (h : m.create fd ctx = some m') (fd' : Nat) :
    m'.get fd' = if fd' = fd then some m.contexts.length else m.get fd' := by
  unfold create at h
  split at h
  · cases h
  · cases h
    show (List.set _ fd _)[fd']?.join = _
    -- the slot is there by then
    have hlt : fd < (if m.fds.length ≤ fd then resize m.fds (fd * 2) else m.fds).length := by
      split
      · next hlen =>
        rw [resize_fds hpos hlen, List.length_append, List.length_replicate]
        omega
      · next hlen => exact not_le.mp hlen
    rw [List.getElem?_set]
    by_cases hfd : fd' = fd
    · rw [if_pos hfd.symm, if_pos hfd, if_pos hlt]
      rfl
    · rw [if_neg (Ne.symm hfd), if_neg hfd]
      split
      · next hlen =>
        rw [resize_fds hpos hlen]
        by_cases hin : fd' < m.fds.length
        · rw [List.getElem?_append_left hin]
          rfl
        · rw [List.getElem?_append_right (not_lt.mp hin), List.getElem?_replicate, get,
            List.getElem?_eq_none (not_lt.mp hin)]
          split <;> rfl
      · rfl

theorem contexts_create {m m' : FdManager} {fd : Nat} {ctx : FdContext}
    (h : m.create fd ctx = some m') : m'.contexts = m.contexts ++ [ctx] := by
  unfold create at h
  split at h
  · cases h
  · cases h
    rfl

theorem length_del (m : FdManager) (fd : Nat) : (m.del fd).fds.length = m.fds.length := by
  unfold del
  split
  · rfl
  · exact List.length_set

theorem contexts_del (m : FdManager) (fd : Nat) : (m.del fd).contexts = m.contexts := by
  unfold del
  split <;> rfl

theorem get_del (m : FdManager) (fd fd' : Nat) :
    (m.del fd).get fd' = if fd' = fd then none else m.get fd' := by
  unfold del
  split
  · next hlen =>
    split
    · next heq =>
      rw [heq, get, List.getElem?_eq_none hlen]
      rfl
    · rfl
  · next hlen =>
    show (List.set _ fd _)[fd']?.join = _
    rw [List.getElem?_set]
    by_cases hfd : fd' = fd
    · rw [if_pos hfd.symm, if_pos hfd, if_pos (not_le.mp hlen)]
      rfl
    · rw [if_neg (Ne.symm hfd), if_neg hfd]
      rfl

end FdManager

/-! ## Calls of `get` -/

/-- The table, the calls that have missed, and the contexts returned so far. -/
structure Calls where
  manager : FdManager
  kernel : Kernel
  /-- The descriptor for which a thread is about to make a context. -/
  pending : Nat → Option Nat
  /-- The results of the calls: the descriptor, and the pointer unless it is null. -/
  returned : List (Nat × Nat)

namespace Calls

def init : Calls :=
  { manager := .init, kernel := fun _ => none, pending := fun _ => none, returned := [] }

inductive Act where
  /-- `get (fd, auto_create)` up to the end of the read lock. -/
  | lookup (t fd : Nat) (autoCreate : Bool)
  /-- Its critical section under the write lock. -/
  | create (t : Nat)
  | del (fd : Nat)
  /-- A setting made through a pointer. -/
  | modify (i : Nat) (f : FdContext → FdContext)
  /-- Descriptors are opened or closed. -/
  | kernel (k : Kernel)

def step (s : Calls) : Act → Option Calls
  | .lookup t fd autoCreate =>
    if s.pending t = none ∧ fd < 2 ^ 31 then
      match s.manager.get fd with
      | some i => some { s with returned := s.returned ++ [(fd, i)] }
      | none => if autoCreate then some { s with pending := Function.update s.pending t (some fd) }
        else some s
    else none
  | .create t =>
    match s.pending t with
    | some fd =>
      let (ctx, kernel) := FdContext.new s.kernel fd
      match s.manager.create fd ctx with
      | some manager =>
        some { manager, kernel
               pending := Function.update s.pending t none
               returned := s.returned ++ [(fd, s.manager.contexts.length)] }
      | none => some { s with kernel, pending := Function.update s.pending t none }
    | none => none
  | .del fd => some { s with manager := s.manager.del fd }
  | .modify i f => some { s with manager := s.manager.modify i f }
  | .kernel k => some { s with kernel := k }

/-- All calls for the descriptor have returned the context that the table has. -/
def OneObject (fd : Nat) (s : Calls) : Prop :=
  ∀ i, (fd, i) ∈ s.returned → s.manager.get fd = some i

/-- A context is made for the descriptor only where there is none. -/
def CreatesOnce (fd : Nat) (s : Calls) : Act → Prop
  | .create t => s.pending t = some fd → s.manager.get fd = none
  | _ => True

/-- What a step does to the table and to the results. -/
inductive Effect (s s' : Calls) (a : Act) : Prop where
  /-- A call has found a context. -/
  | finds (t fd i : Nat) (hget : s.manager.get fd = some i)
      (hs : s' = { s with returned := s.returned ++ [(fd, i)] })
  | misses (t fd : Nat) (hget : s.manager.get fd = none)
      (hs : s' = { s with pending := Function.update s.pending t (some fd) })
  | creates (t fd : Nat) (ha : a = .create t) (hpending : s.pending t = some fd) (ctx : FdContext)
      (hcreate : s.manager.create fd ctx = some s'.manager)
      (hp : s'.pending = Function.update s.pending t none)
      (hr : s'.returned = s.returned ++ [(fd, s.manager.contexts.length)])
  /-- A call has ended with an exception. -/
  | throws (t : Nat) (hm : s'.manager = s.manager)
      (hp : s'.pending = Function.update s.pending t none) (hr : s'.returned = s.returned)
  | dels (fd : Nat) (ha : a = .del fd) (hs : s' = { s with manager := s.manager.del fd })
  /-- Nothing that matters here. -/
  | keeps (hfds : s'.manager.fds = s.manager.fds)
      (hlen : s'.manager.contexts.length = s.manager.contexts.length)
      (hp : s'.pending = s.pending) (hr : s'.returned = s.returned)

theorem step_effect {s s' : Calls} {a : Act} (h : step s a = some s') : Effect s s' a := by
  cases a with
  | lookup t fd autoCreate =>
    simp only [step] at h
    split at h
    · split at h
      · -- the descriptor has an object, or none is made
        next i hget =>
        cases h
        exact .finds t fd i hget rfl
      · next hget =>
        split at h
        · cases h
          exact .misses t fd hget rfl
        · cases h
          exact .keeps rfl rfl rfl rfl
    · cases h
  | create t =>
    simp only [step] at h
    split at h
    · next fd hpending =>
      split at h
      · -- the table takes it, or `resize` throws
        next manager hcreate =>
        cases h
        exact .creates t fd rfl hpending _ hcreate rfl rfl
      · cases h
        exact .throws t rfl rfl rfl
    · cases h
  | del fd =>
    cases h
    exact .dels fd rfl rfl
  | modify i f =>
    cases h
    exact .keeps rfl (List.length_modify ..) rfl rfl
  | kernel k =>
    cases h
    exact .keeps rfl rfl rfl rfl

section

variable {fd : Nat} {s s' : Calls} {a : Act}

theorem get_of_fds {m m' : FdManager} (h : m'.fds = m.fds) (fd : Nat) : m'.get fd = m.get fd := by
  rw [FdManager.get, h, FdManager.get]

/-- The table has slots, and its pointers are to contexts that were made. -/
structure Wf (m : FdManager) : Prop where
  size : 0 < m.fds.length
  made : ∀ fd i, m.get fd = some i → i < m.contexts.length

theorem init_wf : Wf FdManager.init where
  size := by decide
  made fd i h := by
    rw [FdManager.get, FdManager.init, List.getElem?_replicate] at h
    split at h <;> cases h

theorem length_mono (hwf : Wf s.manager) (h : step s a = some s') :
    s.manager.fds.length ≤ s'.manager.fds.length := by
  cases step_effect h with
  | finds t fd i hget hs => rw [hs]
  | misses t fd hget hs => rw [hs]
  | creates t fd ha hpending ctx hcreate hp hr => exact FdManager.length_create hwf.size hcreate
  | throws t hm hp hr => rw [hm]
  | dels fd ha hs =>
    rw [hs]
    exact (FdManager.length_del s.manager fd).ge
  | keeps hfds hlen hp hr => rw [hfds]

theorem contexts_mono (h : step s a = some s') :
    s.manager.contexts.length ≤ s'.manager.contexts.length := by
  cases step_effect h with
  | finds t fd i hget hs => rw [hs]
  | misses t fd hget hs => rw [hs]
  | creates t fd ha hpending ctx hcreate hp hr =>
    rw [FdManager.contexts_create hcreate, List.length_append]
    omega
  | throws t hm hp hr => rw [hm]
  | dels fd ha hs =>
    rw [hs]
    exact (congrArg List.length (FdManager.contexts_del s.manager fd)).ge
  | keeps hfds hlen hp hr => rw [hlen]

theorem step_wf (hwf : Wf s.manager) (h : step s a = some s') : Wf s'.manager := by
  refine ⟨Nat.lt_of_lt_of_le hwf.size (length_mono hwf h), ?_⟩
  intro fd' j hj
  -- an object that was there stays there
  have hold (hget : s.manager.get fd' = some j) : j < s'.manager.contexts.length :=
    Nat.lt_of_lt_of_le (hwf.made fd' j hget) (contexts_mono h)
  cases step_effect h with
  | finds t fd i hget hs =>
    rw [hs] at hj
    exact hold hj
  | misses t fd hget hs =>
    rw [hs] at hj
    exact hold hj
  | creates t fd ha hpending ctx hcreate hp hr =>
    -- the new object is the last one
    rw [FdManager.get_create hwf.size hcreate] at hj
    split at hj
    · cases hj
      rw [FdManager.contexts_create hcreate, List.length_append]
      exact Nat.lt_succ_self _
    · exact hold hj
  | throws t hm hp hr =>
    rw [hm] at hj
    exact hold hj
  | dels fd ha hs =>
    rw [hs, FdManager.get_del] at hj
    split at hj
    · cases hj
    · exact hold hj
  | keeps hfds hlen hp hr =>
    rw [get_of_fds hfds] at hj
    exact hold hj

theorem returned_mono (h : step s a = some s') : s.returned ⊆ s'.returned := by
  cases step_effect h with
  | finds t fd i hget hs =>
    rw [hs]
    exact List.subset_append_left _ _
  | misses t fd hget hs =>
    rw [hs]
    exact List.Subset.refl _
  | creates t fd ha hpending ctx hcreate hp hr =>
    rw [hr]
    exact List.subset_append_left _ _
  | throws t hm hp hr =>
    rw [hr]
    exact List.Subset.refl _
  | dels fd ha hs =>
    rw [hs]
    exact List.Subset.refl _
  | keeps hfds hlen hp hr =>
    rw [hr]
    exact List.Subset.refl _

/-- A thread that waits after another one's call has ended was waiting before. -/
theorem pending_of_cleared {pending : Nat → Option Nat} {t u : Nat}
    (h : Function.update pending t none u = some fd) : pending u = some fd := by
  by_cases hut : u = t
  · rw [hut, Function.update_self] at h
    cases h
  · rwa [Function.update_of_ne hut] at h

/-- What is known of the descriptor while a context is being made for it: the context that the table
has by then was returned to someone. -/
structure Seen (fd : Nat) (s : Calls) : Prop where
  wf : Wf s.manager
  made : ∀ i, (fd, i) ∈ s.returned → i < s.manager.contexts.length
  seen : ∀ t, s.pending t = some fd → ∀ i, s.manager.get fd = some i → (fd, i) ∈ s.returned

theorem step_seen (h : Seen fd s) (hstep : step s a = some s') : Seen fd s' := by
  have hwf := step_wf h.wf hstep
  have hmono {i : Nat} (hi : (fd, i) ∈ s.returned) : i < s'.manager.contexts.length :=
    Nat.lt_of_lt_of_le (h.made i hi) (contexts_mono hstep)
  cases step_effect hstep with
  | finds t fd' i hget hs =>
    refine ⟨hwf, ?_, ?_⟩
    · intro j hj
      rw [hs] at hj
      rcases List.mem_append.mp hj with hold | hnew
      · exact hmono hold
      · cases List.mem_singleton.mp hnew
        exact Nat.lt_of_lt_of_le (h.wf.made fd i hget) (contexts_mono hstep)
    · intro u hu j hj
      rw [hs] at hu hj ⊢
      exact List.mem_append_left _ (h.seen u hu j hj)
  | misses t fd' hget hs =>
    refine ⟨hwf, ?_, ?_⟩
    · intro j hj
      rw [hs] at hj
      exact hmono hj
    · intro u hu j hj
      rw [hs] at hu hj ⊢
      by_cases hut : u = t
      · -- the call has found no context
        subst hut
        change Function.update s.pending u (some fd') u = some fd at hu
        rw [Function.update_self] at hu
        cases hu
        change s.manager.get fd = some j at hj
        rw [hget] at hj
        cases hj
      · change Function.update s.pending t (some fd') u = some fd at hu
        rw [Function.update_of_ne hut] at hu
        exact h.seen u hu j hj
  | creates t fd' ha hpending ctx hcreate hp hr =>
    refine ⟨hwf, ?_, ?_⟩
    · intro j hj
      rw [hr] at hj
      rcases List.mem_append.mp hj with hold | hnew
      · exact hmono hold
      · cases List.mem_singleton.mp hnew
        rw [FdManager.contexts_create hcreate, List.length_append]
        exact Nat.lt_succ_self _
    · intro u hu j hj
      rw [FdManager.get_create h.wf.size hcreate] at hj
      rw [hr, List.mem_append]
      split at hj
      · next heq =>
        cases hj
        rw [heq]
        exact .inr List.mem_cons_self
      · left
        rw [hp] at hu
        exact h.seen u (pending_of_cleared hu) j hj
  | throws t hm hp hr =>
    refine ⟨hwf, ?_, ?_⟩
    · intro j hj
      rw [hr] at hj
      exact hmono hj
    · intro u hu j hj
      rw [hm] at hj
      rw [hr]
      rw [hp] at hu
      exact h.seen u (pending_of_cleared hu) j hj
  | dels fd' ha hs =>
    refine ⟨hwf, ?_, ?_⟩
    · intro j hj
      rw [hs] at hj
      exact hmono hj
    · intro u hu j hj
      rw [hs] at hu hj ⊢
      rw [FdManager.get_del] at hj
      split at hj
      · cases hj
      · exact h.seen u hu j hj
  | keeps hfds hlen hp hr =>
    refine ⟨hwf, ?_, ?_⟩
    · intro j hj
      rw [hr] at hj
      exact hmono hj
    · intro u hu j hj
      rw [get_of_fds hfds] at hj
      rw [hp] at hu
      rw [hr]
      exact h.seen u hu j hj

/-- A step that makes a context only where there is none, and takes none away. -/
theorem step_oneObject (hwf : Wf s.manager) (h : OneObject fd s) (hdel : a ≠ .del fd)
    (honce : CreatesOnce fd s a) (hstep : step s a = some s') : OneObject fd s' := by
  intro j hj
  cases step_effect hstep with
  | finds t fd' i hget hs =>
    rw [hs] at hj ⊢
    rcases List.mem_append.mp hj with hold | hnew
    · exact h j hold
    · cases List.mem_singleton.mp hnew
      exact hget
  | misses t fd' hget hs =>
    rw [hs] at hj ⊢
    exact h j hj
  | creates t fd' ha hpending ctx hcreate hp hr =>
    rw [FdManager.get_create hwf.size hcreate]
    rw [hr] at hj
    rcases List.mem_append.mp hj with hold | hnew
    · have hget := h j hold
      split
      · next heq =>
        -- the table has a context already
        subst heq
        subst ha
        rw [honce hpending] at hget
        cases hget
      · exact hget
    · cases List.mem_singleton.mp hnew
      rw [if_pos rfl]
  | throws t hm hp hr =>
    rw [hm]
    rw [hr] at hj
    exact h j hj
  | dels fd' ha hs =>
    rw [hs] at hj ⊢
    rw [FdManager.get_del, if_neg]
    · exact h j hj
    · intro heq
      exact hdel (by rw [ha, heq])
  | keeps hfds hlen hp hr =>
    rw [get_of_fds hfds]
    rw [hr] at hj
    exact h j hj

/-- A second context for the descriptor: now two of them were returned. -/
theorem two_returned (h : Seen fd s) (honce : ¬ CreatesOnce fd s a) (hstep : step s a = some s') :
    ∃ i j, i ≠ j ∧ (fd, i) ∈ s'.returned ∧ (fd, j) ∈ s'.returned := by
  cases a with
  | create t =>
    obtain ⟨hpending, hsome⟩ := Classical.not_imp.mp honce
    obtain ⟨i, hi⟩ := Option.ne_none_iff_exists'.mp hsome
    have hseen := h.seen t hpending i hi
    simp only [step, hpending] at hstep
    split at hstep
    · cases hstep
      refine ⟨i, s.manager.contexts.length, ?_, List.mem_append_left _ hseen,
        List.mem_append_right _ List.mem_cons_self⟩
      exact Nat.ne_of_lt (h.made i hseen)
    · next hthrow =>
      -- a slot that holds a context is inside the table
      have hlen : fd < s.manager.fds.length := by
        by_contra hge
        rw [FdManager.get, List.getElem?_eq_none (not_lt.mp hge)] at hi
        cases hi
      rw [FdManager.create, if_neg fun hc => absurd hc.1 (not_le.mpr hlen)] at hthrow
      cases hthrow
  | lookup => exact absurd trivial honce
  | del => exact absurd trivial honce
  | modify => exact absurd trivial honce
  | kernel => exact absurd trivial honce

/-- Two contexts returned for the descriptor are not one. -/
theorem not_oneObject {i j : Nat} (hne : i ≠ j) (hi : (fd, i) ∈ s.returned)
    (hj : (fd, j) ∈ s.returned) : ¬ OneObject fd s := by
  intro h
  have hsame := (h i hi).symm.trans (h j hj)
  exact hne (Option.some.inj hsame)

theorem run_returned_mono {acts : List Act} (h : runFrom step s acts = some s') :
    s.returned ⊆ s'.returned :=
  runFrom_invariant (P := fun x => s.returned ⊆ x.returned)
    (fun _ _ _ hsub hstep => List.Subset.trans hsub (returned_mono hstep)) (List.Subset.refl _) h

theorem createsOnce_of_oneObject {acts : List Act} (h : Seen fd s)
    (hrun : runFrom step s acts = some s') (hone : OneObject fd s') :
    AllSteps step (CreatesOnce fd) s acts := by
  induction acts generalizing s with
  | nil => trivial
  | cons a acts ih =>
    obtain ⟨t, ht, hrest⟩ := runFrom_cons_some.mp hrun
    refine ⟨?_, ?_⟩
    · by_contra honce
      obtain ⟨i, j, hne, hi, hj⟩ := two_returned h honce ht
      have hmono := run_returned_mono hrest
      exact not_oneObject hne (hmono hi) (hmono hj) hone
    · intro t' ht'
      rw [ht] at ht'
      cases ht'
      exact ih (step_seen h ht) hrest

end

/-- **All calls return one context, and it stays that of the descriptor, just when no context is
made where there is one**: in every interleaving without a `del (fd)`, from any state in which no
`get` is about to make a context for the descriptor.  The table never gets shorter. -/
theorem oneObject_iff (before : List Act) (s₀ : Calls)
    (hbefore : runFrom step init before = some s₀)
    (fd : Nat) (hquiet : ∀ t, s₀.pending t ≠ some fd) (acts : List Act)
    (hdel : ∀ a ∈ acts, a ≠ .del fd) (s : Calls)
    (h : runFrom step { s₀ with returned := [] } acts = some s) :
    (OneObject fd s ↔ AllSteps step (CreatesOnce fd) { s₀ with returned := [] } acts) ∧
      s₀.manager.fds.length ≤ s.manager.fds.length := by
  have hwf : Wf s₀.manager :=
    runFrom_invariant (P := fun x => Wf x.manager) (fun _ _ _ => step_wf) init_wf hbefore
  refine ⟨⟨?_, ?_⟩, ?_⟩
  · -- a context made over another one leaves two results behind
    refine createsOnce_of_oneObject ⟨hwf, ?_, ?_⟩ h
    · intro i hi
      cases hi
    · intro t ht
      exact absurd ht (hquiet t)
  · intro honce
    -- as long as none is made over another, the table keeps the one that was returned
    have hboth : Wf s.manager ∧ OneObject fd s := by
      refine runFrom_guarded (P := fun x => Wf x.manager ∧ OneObject fd x)
        (G := fun s a => a ≠ .del fd ∧ CreatesOnce fd s a) ?_ acts { s₀ with returned := [] } s
        ⟨hwf, ?_⟩ (honce.and_mem hdel) h
      · intro s a s' hs hguard hstep
        exact ⟨step_wf hs.1 hstep, step_oneObject hs.1 hs.2 hguard.1 hguard.2 hstep⟩
      · intro i hi
        cases hi
    exact hboth.2
  · have hboth : Wf s.manager ∧ s₀.manager.fds.length ≤ s.manager.fds.length := by
      refine runFrom_invariant
        (P := fun x => Wf x.manager ∧ s₀.manager.fds.length ≤ x.manager.fds.length) ?_
        ⟨hwf, le_rfl⟩ h
      intro s a s' hs hstep
      exact ⟨step_wf hs.1 hstep, hs.2.trans (length_mono hs.1 hstep)⟩
    exact hboth.2

/-- One thread makes the context of descriptor 70, and another finds it. -/
theorem oneObject_iff_two_calls :
    ∃ s, runFrom step init [.lookup 1 70 true, .create 1, .lookup 2 70 true] = some s ∧
      s.returned = [(70, 0), (70, 0)] ∧ s.manager.fds.length = 140 ∧ OneObject 70 s := by
  refine ⟨_, rfl, rfl, rfl, ?_⟩
  refine (oneObject_iff [] init rfl 70 (fun _ h => by cases h)
    [.lookup 1 70 true, .create 1, .lookup 2 70 true] (by simp) _ rfl).1.mpr ?_
  refine ⟨trivial, ?_⟩
  rintro _ ⟨⟩
  refine ⟨fun _ => rfl, ?_⟩
  rintro _ ⟨⟩
  exact ⟨trivial, fun _ _ => trivial⟩

/-- Two threads miss, and each makes a context. -/
theorem two_calls_two_objects :
    ¬ ∀ (acts : List Act) (s : Calls), (∀ a ∈ acts, a ≠ .del 5) →
      runFrom step init acts = some s → OneObject 5 s := by
  intro hall
  have hone := hall [.lookup 1 5 true, .lookup 2 5 true, .create 1, .create 2] _ (by simp) rfl
  -- the first of them is no longer in the table
  have hget := hone 0 (by decide)
  exact absurd hget (by decide)

end Calls

end Luwu.Hook
