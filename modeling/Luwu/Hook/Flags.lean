import Luwu.Hook.FdManager

/-!
# The non-blocking flag

The hooks make every socket non-blocking and hide this from the user: `fcntl` keeps what the user
has asked for in `m_isUserNonBlock`, answers `F_GETFL` from there, and keeps `O_NONBLOCK` set in
the kernel. `ioctl (FIONBIO)` notes the user's wish as well, but hands it on to the kernel as it
is.
-/

namespace Luwu.Hook

/-- What the hooks of a process work on. -/
structure Process where
  manager : FdManager
  kernel : Kernel

/-- The table as any interleaving of the calls of `get` and `del` leaves it. -/
def FdManager.Reachable (m : FdManager) : Prop :=
  ∃ acts s, Lib.runFrom Calls.step Calls.init acts = some s ∧ s.manager = m

theorem FdManager.Reachable.wf {m : FdManager} (h : m.Reachable) : Calls.Wf m := by
  obtain ⟨acts, s, hrun, rfl⟩ := h
  exact Lib.runFrom_invariant (P := fun x => Calls.Wf x.manager) (fun _ _ _ => Calls.step_wf)
    Calls.init_wf hrun

namespace Process

/-- `FdMgr::getInstance ()->get (fd)`. -/
def context (p : Process) (fd : Nat) : Option FdContext :=
  (p.manager.get fd).bind fun i => p.manager.contexts[i]?

/-- A setting made through the pointer that `get (fd)` returns. -/
def modify (p : Process) (fd : Nat) (f : FdContext → FdContext) : Process :=
  match p.manager.get fd with
  | some i => { p with manager := p.manager.modify i f }
  | none => p

/-- `FdMgr::getInstance ()->get (fd, true)` for a descriptor without a context. -/
def register (p : Process) (fd : Nat) : Option Process :=
  let (ctx, kernel) := FdContext.new p.kernel fd
  (p.manager.create fd ctx).map fun manager => { manager, kernel }

/-- The context, unless it is null, closed, or not that of a socket. -/
def hooked (p : Process) (fd : Nat) : Option FdContext :=
  (p.context fd).filter fun ctx => !ctx.isClosed && ctx.isSocket

/-- `fcntl_f (fd, F_SETFL, arg)`; the kernel may refuse a change of the flags. -/
def setfl (p : Process) (fd : Nat) (arg : BitVec 32) (ok : Bool) : BitVec 32 × Process :=
  match p.kernel fd with
  | some file =>
    if ok then (0, { p with kernel := Function.update p.kernel fd (some (file.setfl arg)) })
    else (-1, p)
  | none => (-1, p)

/-- `fcntl_f (fd, F_GETFL)`. -/
def getfl (p : Process) (fd : Nat) : BitVec 32 :=
  match p.kernel fd with
  | some file => file.flags
  | none => -1

/-- `ioctl_f (fd, FIONBIO, &v)`. -/
def fionbio (p : Process) (fd : Nat) (v : BitVec 32) : BitVec 32 × Process :=
  match p.kernel fd with
  | some file =>
    let flags := if v ≠ 0 then file.flags ||| nonBlock else file.flags &&& ~~~nonBlock
    (0, { p with kernel := Function.update p.kernel fd (some { file with flags }) })
  | none => (-1, p)

def fcntlSetfl (p : Process) (fd : Nat) (arg : BitVec 32) (ok : Bool) : BitVec 32 × Process :=
  match p.hooked fd with
  | none => p.setfl fd arg ok
  | some ctx =>
    let p := p.modify fd fun c => { c with isUserNonBlock := arg &&& nonBlock ≠ 0 }
    let arg := if ctx.isSysNonBlock then arg ||| nonBlock else arg &&& ~~~nonBlock
    p.setfl fd arg ok

def fcntlGetfl (p : Process) (fd : Nat) : BitVec 32 :=
  let flags := p.getfl fd
  match p.hooked fd with
  | none => flags
  | some ctx => if ctx.isUserNonBlock then flags ||| nonBlock else flags &&& ~~~nonBlock

def ioctlFionbio (p : Process) (fd : Nat) (v : BitVec 32) : BitVec 32 × Process :=
  match p.hooked fd with
  | none => p.fionbio fd v
  | some _ => (p.modify fd fun c => { c with isUserNonBlock := v ≠ 0 }).fionbio fd v

end Process

/-- A hooked call for a descriptor. -/
inductive FlagCall where
  | setfl (arg : BitVec 32) (ok : Bool)
  | getfl
  | fionbio (v : BitVec 32)
deriving DecidableEq, Repr

def FlagCall.exec (fd : Nat) (p : Process) : FlagCall → Process
  | .setfl arg ok => (p.fcntlSetfl fd arg ok).2
  | .getfl => p
  | .fionbio v => (p.ioctlFionbio fd v).2

/-- Whether the user wants the descriptor non-blocking, after one more call. -/
def FlagCall.request (r : Bool) : FlagCall → Bool
  | .setfl arg _ => arg &&& nonBlock ≠ 0
  | .getfl => r
  | .fionbio v => v ≠ 0

/-- What the user asked for last; at first the descriptor is blocking. -/
def lastRequest (calls : List FlagCall) : Bool := calls.foldl FlagCall.request false

/-- `O_NONBLOCK` is set in the kernel. -/
def Process.NonBlocking (p : Process) (fd : Nat) : Prop :=
  ∃ file, p.kernel fd = some file ∧ file.flags &&& nonBlock ≠ 0

/-! ## The bit -/

theorem nonBlock_eq : nonBlock = BitVec.twoPow 32 11 := by decide

theorem and_nonBlock (x : BitVec 32) : x &&& nonBlock ≠ 0 ↔ x.getLsbD 11 = true := by
  rw [nonBlock_eq, BitVec.and_twoPow]
  cases x.getLsbD 11 with
  | true => decide
  | false => decide

theorem getLsbD_or_nonBlock (x : BitVec 32) : (x ||| nonBlock).getLsbD 11 = true := by
  rw [BitVec.getLsbD_or, show nonBlock.getLsbD 11 = true by decide, Bool.or_true]

theorem getLsbD_clear_nonBlock (x : BitVec 32) : (x &&& ~~~nonBlock).getLsbD 11 = false := by
  rw [BitVec.getLsbD_and, show (~~~nonBlock).getLsbD 11 = false by decide, Bool.and_false]

theorem getLsbD_setfl (file : File) (arg : BitVec 32) :
    (file.setfl arg).flags.getLsbD 11 = arg.getLsbD 11 := by
  rw [File.setfl, BitVec.getLsbD_or, BitVec.getLsbD_and, BitVec.getLsbD_and,
    show (~~~setflMask).getLsbD 11 = false by decide, show setflMask.getLsbD 11 = true by decide,
    Bool.and_false, Bool.false_or, Bool.and_true]

/-! ## Sequences of calls -/

section

variable {p p₀ : Process} {fd : Nat} {r : Bool}

theorem Process.context_modify (p : Process) (fd : Nat) (f : FdContext → FdContext) :
    (p.modify fd f).context fd = (p.context fd).map f := by
  unfold modify
  cases hget : p.manager.get fd with
  | none => rw [context, hget]; rfl
  | some i =>
    show ((p.manager.modify i f).get fd).bind _ = _
    rw [show (p.manager.modify i f).get fd = some i from hget, context, hget]
    exact List.getElem?_modify_eq ..

theorem Process.kernel_modify (p : Process) (fd : Nat) (f : FdContext → FdContext) :
    (p.modify fd f).kernel = p.kernel := by
  unfold modify
  split <;> rfl

/-- An open socket that the hooks have made non-blocking, while the user wants what `r` says. -/
structure Hooked (fd : Nat) (p : Process) (r : Bool) : Prop where
  context : ∃ ctx, p.context fd = some ctx ∧ ctx.isClosed = false ∧ ctx.isSocket = true ∧
    ctx.isSysNonBlock = true ∧ ctx.isUserNonBlock = r
  isOpen : ∃ file, p.kernel fd = some file

theorem Hooked.hooked (h : Hooked fd p r) :
    ∃ ctx, p.hooked fd = some ctx ∧ ctx.isSysNonBlock = true ∧ ctx.isUserNonBlock = r := by
  obtain ⟨ctx, hctx, hclosed, hsock, hsys, huser⟩ := h.context
  refine ⟨ctx, ?_, hsys, huser⟩
  rw [Process.hooked, hctx, Option.filter_some, hclosed, hsock]
  rfl

/-- The hook notes the user's wish. -/
theorem Hooked.modify (h : Hooked fd p r) (r' : Bool) :
    Hooked fd (p.modify fd fun c => { c with isUserNonBlock := r' }) r' := by
  obtain ⟨ctx, hctx, hclosed, hsock, hsys, -⟩ := h.context
  constructor
  · rw [Process.context_modify, hctx]
    exact ⟨_, rfl, hclosed, hsock, hsys, rfl⟩
  · rw [Process.kernel_modify]
    exact h.isOpen

/-- The kernel has changed the flags. -/
theorem Hooked.update (h : Hooked fd p r) (file : File) :
    Hooked fd { p with kernel := Function.update p.kernel fd (some file) } r :=
  ⟨h.context, file, Function.update_self ..⟩

theorem nonBlocking_update (file : File) :
    Process.NonBlocking { p with kernel := Function.update p.kernel fd (some file) } fd ↔
      file.flags.getLsbD 11 = true := by
  rw [← and_nonBlock]
  constructor
  · rintro ⟨file', hfile', hbit⟩
    cases (Function.update_self ..).symm.trans hfile'
    exact hbit
  · intro hbit
    exact ⟨file, Function.update_self .., hbit⟩

/-- What `F_SETFL` does to a hooked socket: the bit in the kernel is set, or nothing is changed. -/
theorem fcntlSetfl_hooked (h : Hooked fd p r) (arg : BitVec 32) (ok : Bool) :
    Hooked fd (p.fcntlSetfl fd arg ok).2 (arg &&& nonBlock ≠ 0) ∧
      (p.NonBlocking fd → (p.fcntlSetfl fd arg ok).2.NonBlocking fd) := by
  obtain ⟨ctx, hctx, hsys, -⟩ := h.hooked
  have hnoted := h.modify (arg &&& nonBlock ≠ 0)
  obtain ⟨file, hfile⟩ := hnoted.isOpen
  simp only [Process.fcntlSetfl, hctx, hsys, if_true, Process.setfl, hfile]
  cases ok with
  | true =>
    refine ⟨hnoted.update _, fun _ => ?_⟩
    apply (nonBlocking_update _).mpr
    rw [getLsbD_setfl, getLsbD_or_nonBlock]
  | false =>
    refine ⟨hnoted, ?_⟩
    rintro ⟨file', hfile', hbit⟩
    exact ⟨file', (congrFun (p.kernel_modify fd _) fd).trans hfile', hbit⟩

/-- What `FIONBIO` does to it: the bit is what the user asked for. -/
theorem ioctlFionbio_hooked (h : Hooked fd p r) (v : BitVec 32) :
    Hooked fd (p.ioctlFionbio fd v).2 (v ≠ 0) ∧
      ((p.ioctlFionbio fd v).2.NonBlocking fd ↔ v ≠ 0) := by
  obtain ⟨ctx, hctx, -, -⟩ := h.hooked
  have hnoted := h.modify (v ≠ 0)
  obtain ⟨file, hfile⟩ := hnoted.isOpen
  simp only [Process.ioctlFionbio, hctx, Process.fionbio, hfile]
  refine ⟨hnoted.update _, (nonBlocking_update _).trans ?_⟩
  by_cases hv : v = 0
  · simp only [hv, ne_eq, not_true_eq_false, if_false, getLsbD_clear_nonBlock, Bool.false_eq_true]
  · simp only [hv, ne_eq, not_false_eq_true, if_true, getLsbD_or_nonBlock]

theorem exec_hooked (h : Hooked fd p r) (c : FlagCall) : Hooked fd (c.exec fd p) (c.request r) := by
  cases c with
  | setfl arg ok => exact (fcntlSetfl_hooked h arg ok).1
  | getfl => exact h
  | fionbio v => exact (ioctlFionbio_hooked h v).1

theorem exec_nonBlocking (h : Hooked fd p r) (hbit : p.NonBlocking fd) {c : FlagCall}
    (hc : c ≠ .fionbio 0) : (c.exec fd p).NonBlocking fd := by
  cases c with
  | setfl arg ok => exact (fcntlSetfl_hooked h arg ok).2 hbit
  | getfl => exact hbit
  | fionbio v => exact (ioctlFionbio_hooked h v).2.mpr fun hv => hc (by rw [hv])

theorem fcntlGetfl_hooked (h : Hooked fd p r) : p.fcntlGetfl fd &&& nonBlock ≠ 0 ↔ r = true := by
  obtain ⟨ctx, hctx, -, huser⟩ := h.hooked
  simp only [Process.fcntlGetfl, hctx, huser, and_nonBlock]
  cases r with
  | true => simp only [if_true, getLsbD_or_nonBlock]
  | false => simp only [if_false, getLsbD_clear_nonBlock, Bool.false_eq_true]

theorem run_hooked (calls : List FlagCall) (h : Hooked fd p r) :
    Hooked fd (calls.foldl (FlagCall.exec fd) p) (calls.foldl FlagCall.request r) := by
  induction calls generalizing p r with
  | nil => exact h
  | cons c calls ih => exact ih (exec_hooked h c)

theorem run_nonBlocking (calls : List FlagCall) (h : Hooked fd p r) (hbit : p.NonBlocking fd)
    (hcalls : .fionbio 0 ∉ calls) : (calls.foldl (FlagCall.exec fd) p).NonBlocking fd := by
  induction calls generalizing p r with
  | nil => exact hbit
  | cons c calls ih =>
    rw [List.mem_cons, not_or] at hcalls
    exact ih (exec_hooked h c) (exec_nonBlocking h hbit (Ne.symm hcalls.1)) hcalls.2

theorem register_context (hwf : Calls.Wf p.manager) {file : File} (hfile : p.kernel fd = some file)
    (hsock : file.isSocket = true) (h : p.register fd = some p₀) :
    p₀.context fd = some { isInit := true, isSocket := true, isSysNonBlock := true } := by
  simp only [Process.register, FdContext.new, hfile, hsock, if_true] at h
  obtain ⟨manager, hcreate, rfl⟩ := Option.map_eq_some_iff.mp h
  have hget : manager.get fd = some p.manager.contexts.length := by
    rw [FdManager.get_create hwf.size hcreate, if_pos rfl]
  simp [Process.context, hget, FdManager.contexts_create hcreate]

theorem register_hooked (hwf : Calls.Wf p.manager) {file : File} (hfile : p.kernel fd = some file)
    (hsock : file.isSocket = true) (h : p.register fd = some p₀) :
    Hooked fd p₀ false ∧ p₀.NonBlocking fd := by
  have hctx := register_context hwf hfile hsock h
  simp only [Process.register, FdContext.new, hfile, hsock, if_true] at h
  obtain ⟨manager, -, rfl⟩ := Option.map_eq_some_iff.mp h
  refine ⟨⟨⟨_, hctx, rfl, rfl, rfl, rfl⟩, _, Function.update_self ..⟩,
    (nonBlocking_update _).mpr ?_⟩
  -- the flag is set, unless it was
  split
  · rw [getLsbD_setfl, getLsbD_or_nonBlock]
  · next hset => exact (and_nonBlock _).mp hset

end

/-- **The kernel's flag stays set just when no `FIONBIO` call clears it**: after any sequence of
calls for a socket that was registered.  `F_GETFL` reports what the user has asked for last. -/
theorem nonBlocking_iff (m : FdManager) (hm : m.Reachable) (kernel : Kernel) (fd : Nat)
    (file : File) (hfile : kernel fd = some file) (hsock : file.isSocket = true) (p₀ : Process)
    (hreg : Process.register ⟨m, kernel⟩ fd = some p₀) (calls : List FlagCall) :
    (∀ pre, pre <+: calls →
      (pre.foldl (FlagCall.exec fd) p₀).NonBlocking fd ∧
      ((pre.foldl (FlagCall.exec fd) p₀).fcntlGetfl fd &&& nonBlock ≠ 0 ↔ lastRequest pre = true)) ↔
    .fionbio 0 ∉ calls := by
  obtain ⟨hhooked, hbit⟩ := register_hooked (p := ⟨m, kernel⟩) hm.wf hfile hsock hreg
  constructor
  · intro h hmem
    -- the state right after the call that clears the flag
    obtain ⟨pre, post, rfl⟩ := List.mem_iff_append.mp hmem
    have hafter := (h (pre ++ [.fionbio 0]) ⟨post, by simp⟩).1
    rw [List.foldl_append] at hafter
    exact (ioctlFionbio_hooked (run_hooked pre hhooked) 0).2.mp hafter rfl
  · intro hcalls pre hpre
    refine ⟨run_nonBlocking pre hhooked hbit fun hmem => hcalls (hpre.subset hmem), ?_⟩
    exact fcntlGetfl_hooked (run_hooked pre hhooked)

/-- Descriptor 3 is a socket that was opened for reading and writing. -/
def socketThree : Kernel := Function.update (fun _ => none) 3 (some ⟨true, 2⟩)

/-- The user makes the socket non-blocking, and then blocking with `F_SETFL`. -/
theorem nonBlocking_iff_setfl :
    ∃ p₀, Process.register ⟨.init, socketThree⟩ 3 = some p₀ ∧
      ∀ pre, pre <+: [.fionbio 1, .setfl 2 true] →
        (pre.foldl (FlagCall.exec 3) p₀).NonBlocking 3 ∧
        ((pre.foldl (FlagCall.exec 3) p₀).fcntlGetfl 3 &&& nonBlock ≠ 0 ↔ lastRequest pre = true) :=
  ⟨_, rfl, (nonBlocking_iff .init ⟨[], .init, rfl, rfl⟩ socketThree 3 ⟨true, 2⟩ rfl rfl _ rfl
    [.fionbio 1, .setfl 2 true]).mpr (by decide)⟩

/-- `FIONBIO` with the value 0 makes the descriptor blocking. -/
theorem fionbio_clears :
    ¬ ∀ p₀, Process.register ⟨.init, socketThree⟩ 3 = some p₀ →
      ∀ calls : List FlagCall, (calls.foldl (FlagCall.exec 3) p₀).NonBlocking 3 := by
  intro h
  obtain ⟨file, hfile, hbit⟩ := h _ rfl [.fionbio 0]
  cases hfile
  exact hbit (by decide)

end Luwu.Hook
