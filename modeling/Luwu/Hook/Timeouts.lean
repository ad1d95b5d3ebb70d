import Mathlib.Data.Int.Init
import Luwu.Hook.Flags

/-!
# The timeouts of a socket

`Socket::setRecvTimeout` passes its milliseconds as a `timeval` to `setsockopt`.  The hook of
`setsockopt` is there to keep the timeout in the descriptor's context, where `do_io` finds it when
a call would block.
-/

namespace Luwu.Hook

/-- `struct timeval`. -/
structure Timeval where
  sec : Int
  usec : Int
deriving DecidableEq, Repr

/-- The conversion of a `uint64_t` to `int`. -/
def toInt (n : UInt64) : Int := (n.toBitVec.setWidth 32).toInt

/-- The `timeval` that `setRecvTimeout` and `setSendTimeout` make. -/
def Timeval.ofTimeout (timeout : UInt64) : Timeval :=
  ⟨toInt (timeout / 1000), toInt (timeout % 1000 * 1000)⟩

/-- `v->tv_sec * 1000 + v->tv_usec / 1000`, as a `uint64_t`. -/
def Timeval.millis (v : Timeval) : UInt64 := UInt64.ofInt (v.sec * 1000 + v.usec.tdiv 1000)

namespace Process

/-- `setsockopt (fd, SOL_SOCKET, type, &v, sizeof v)` on a thread whose `t_hook_enable` is
`enabled`; `rt` is the result of `setsockopt_f`. -/
def setsockopt (enabled : Bool) (p : Process) (fd : Nat) (type : TimeoutOption) (v : Timeval)
    (rt : Int) : Int × Process :=
  if enabled then (rt, p)
  else (rt, p.modify fd fun ctx => ctx.setTimeout type v.millis)

def setOption (enabled : Bool) (p : Process) (fd : Nat) (type : TimeoutOption) (v : Timeval)
    (rt : Int) : Bool × Process :=
  let (rt, p) := p.setsockopt enabled fd type v rt
  (rt == 0, p)

/-- `Socket::setRecvTimeout (timeout)` and `setSendTimeout (timeout)`. -/
def setTimeout (enabled : Bool) (p : Process) (fd : Nat) (type : TimeoutOption) (timeout : UInt64)
    (rt : Int) : Process :=
  (p.setOption enabled fd type (.ofTimeout timeout) rt).2

/-- `Socket::getRecvTimeout ()` and `getSendTimeout ()`. -/
def getTimeout (p : Process) (fd : Nat) (type : TimeoutOption) : UInt64 :=
  match p.context fd with
  | some ctx => ctx.getTimeout type
  | none => -1

end Process

/-! ## Calls that may block -/

/-- What comes of waiting for the event. -/
inductive Wait where
  /-- `addEvent` has failed. -/
  | notAdded
  | ready
  /-- The timer was first. -/
  | timedOut
deriving DecidableEq, Repr

/-- A result of the original function. -/
inductive IoResult where
  | count (n : Nat)
  | eintr
  /-- The call would block. -/
  | eagain (w : Wait)
  | error (errno : Nat)
deriving DecidableEq, Repr

/-- How a hooked call ends. -/
inductive IoEnd where
  | returns (r : IoResult)
  | ebadf
  | etimedout
  | notAdded
  /-- The results are used up: it is still waiting. -/
  | running
deriving DecidableEq, Repr

/-- The timer of a call with a timeout. -/
def timerOf (timeout : UInt64) : Option UInt64 := if timeout ≠ -1 then some timeout else none

/-- `do_io` from the label `retry` on: how it ends, and for each time that it waits the timer it has
armed. -/
def retry (timeout : UInt64) : List IoResult → IoEnd × List (Option UInt64)
  | [] => (.running, [])
  | .eintr :: rs => retry timeout rs
  | .eagain w :: rs =>
    let timer := timerOf timeout
    match w with
    | .notAdded => (.notAdded, [timer])
    | .ready => ((retry timeout rs).1, timer :: (retry timeout rs).2)
    | .timedOut =>
      -- only the timer sets `cancelled`
      if timer.isSome then (.etimedout, [timer])
      else ((retry timeout rs).1, timer :: (retry timeout rs).2)
  | r :: _ => (.returns r, [])

/-- `fun (fd, args)` without the hook. -/
def direct : List IoResult → IoEnd × List (Option UInt64)
  | [] => (.running, [])
  | r :: _ => (.returns r, [])

/-- `do_io` for a descriptor, with the option that has its timeout. -/
def doIo (enabled : Bool) (p : Process) (fd : Nat) (type : TimeoutOption)
    (results : List IoResult) :
    IoEnd × List (Option UInt64) :=
  if !enabled then direct results
  else
    match p.context fd with
    | none => direct results
    | some ctx =>
      if ctx.isClosed then (.ebadf, [])
      else if !ctx.isSocket || ctx.isUserNonBlock then direct results
      else retry (ctx.getTimeout type) results

theorem timer_of_mem_retry {timeout : UInt64} {results : List IoResult} {timer : Option UInt64}
    (h : timer ∈ (retry timeout results).2) : timer = timerOf timeout := by
  induction results with
  | nil => cases h
  | cons r rs ih =>
    cases r with
    | count n => cases h
    | error e => cases h
    | eintr => exact ih h
    | eagain w =>
      cases w with
      | notAdded => exact List.mem_singleton.mp h
      | ready =>
        rcases List.mem_cons.mp h with hnow | hlater
        · exact hnow
        · exact ih hlater
      | timedOut =>
        simp only [retry] at h
        split at h
        · exact List.mem_singleton.mp h
        · rcases List.mem_cons.mp h with hnow | hlater
          · exact hnow
          · exact ih hlater

/-- A call that would block arms a timer when there is a timeout. -/
theorem retry_eagain (timeout : UInt64) (w : Wait) (rs : List IoResult) :
    timerOf timeout ∈ (retry timeout (.eagain w :: rs)).2 := by
  cases w with
  | notAdded => exact List.mem_cons_self
  | ready => exact List.mem_cons_self
  | timedOut =>
    simp only [retry]
    split <;> exact List.mem_cons_self

/-! ## Sequences of calls -/

/-- A call of `setRecvTimeout` or `setSendTimeout`. -/
structure SetCall where
  type : TimeoutOption
  timeout : UInt64
  /-- The result of `setsockopt_f`. -/
  rt : Int := 0
deriving DecidableEq, Repr

def SetCall.exec (enabled : Bool) (fd : Nat) (p : Process) (c : SetCall) : Process :=
  p.setTimeout enabled fd c.type c.timeout c.rt

/-- The value set for a direction, after one more call. -/
def SetCall.next (type : TimeoutOption) (v : Option UInt64) (c : SetCall) : Option UInt64 :=
  if c.type = type then some c.timeout else v

/-- The value last set for a direction. -/
def lastSet (type : TimeoutOption) (calls : List SetCall) : Option UInt64 :=
  calls.foldl (SetCall.next type) none

/-- The timeouts are those that were set, and `do_io` goes by them. -/
def Honoured (p : Process) (fd : Nat) (calls : List SetCall) : Prop :=
  ∀ type, p.getTimeout fd type = (lastSet type calls).getD (-1) ∧
    (∀ results, ∀ timer ∈ (doIo true p fd type results).2, timer = lastSet type calls) ∧
    ∀ w rs, lastSet type calls ∈ (doIo true p fd type (.eagain w :: rs)).2

theorem toInt_eq {n : UInt64} (h : n.toNat < 2 ^ 31) : toInt n = n.toNat := by
  have hw : (n.toBitVec.setWidth 32).toNat = n.toNat := by
    rw [BitVec.toNat_setWidth, UInt64.toNat_toBitVec]
    exact Nat.mod_eq_of_lt (by omega)
  rw [toInt, BitVec.toInt_eq_toNat_of_lt (by rw [hw]; omega), hw]

/-- The `timeval` keeps the milliseconds. -/
theorem millis_ofTimeout {timeout : UInt64} (h : (timeout / 1000).toNat < 2 ^ 31) :
    (Timeval.ofTimeout timeout).millis = timeout := by
  have hlt := timeout.toNat_lt
  have hsec : (timeout / 1000).toNat = timeout.toNat / 1000 := UInt64.toNat_div ..
  have husec : (timeout % 1000 * 1000).toNat = timeout.toNat % 1000 * 1000 := by
    rw [UInt64.toNat_mul, UInt64.toNat_mod, show (1000 : UInt64).toNat = 1000 from rfl]
    exact Nat.mod_eq_of_lt (by omega)
  have hmillis : (((timeout.toNat % 1000 * 1000 : Nat) : Int)).tdiv 1000 =
      ((timeout.toNat % 1000 : Nat) : Int) := by
    rw [Int.tdiv_eq_ediv_of_nonneg (Int.natCast_nonneg _)]
    omega
  apply UInt64.toNat_inj.mp
  simp only [Timeval.millis, Timeval.ofTimeout]
  rw [toInt_eq h, toInt_eq (by omega), hsec, husec, hmillis, UInt64.ofInt, UInt64.toNat_ofNat']
  omega

/-- A timeout that fits into a `timeval` is not the one that says there is none. -/
theorem ne_neg_one {timeout : UInt64} (h : (timeout / 1000).toNat < 2 ^ 31) : timeout ≠ -1 := by
  intro heq
  subst heq
  exact absurd h (by decide)

theorem exists_of_foldl {type : TimeoutOption} {calls : List SetCall} {v₀ : Option UInt64}
    {v : UInt64} (h : calls.foldl (SetCall.next type) v₀ = some v) :
    v₀ = some v ∨ ∃ c ∈ calls, c.timeout = v := by
  induction calls generalizing v₀ with
  | nil => exact .inl h
  | cons c calls ih =>
    rcases ih h with hfirst | ⟨c', hc', hv⟩
    · unfold SetCall.next at hfirst
      split at hfirst
      · exact .inr ⟨c, List.mem_cons_self, Option.some.inj hfirst⟩
      · exact .inl hfirst
    · exact .inr ⟨c', List.mem_cons_of_mem c hc', hv⟩

theorem lastSet_ne {type : TimeoutOption} {calls : List SetCall} {v : UInt64}
    (hcalls : ∀ c ∈ calls, (c.timeout / 1000).toNat < 2 ^ 31) (h : lastSet type calls = some v) :
    v ≠ -1 := by
  rcases exists_of_foldl h with hnone | ⟨c, hc, rfl⟩
  · cases hnone
  · exact ne_neg_one (hcalls c hc)

section

variable {p : Process} {fd : Nat} {ctx : FdContext}

theorem getTimeout_context (h : p.context fd = some ctx) (type : TimeoutOption) :
    p.getTimeout fd type = ctx.getTimeout type := by
  rw [Process.getTimeout, h]

/-- The context of an open socket that is blocking for its user. -/
structure Blocking (ctx : FdContext) : Prop where
  isClosed : ctx.isClosed = false
  isSocket : ctx.isSocket = true
  isUserNonBlock : ctx.isUserNonBlock = false

theorem doIo_blocking (h : p.context fd = some ctx) (hb : Blocking ctx) (type : TimeoutOption)
    (results : List IoResult) :
    doIo true p fd type results = retry (ctx.getTimeout type) results := by
  simp [doIo, h, hb.isClosed, hb.isSocket, hb.isUserNonBlock]

/-- `do_io` goes by the timeouts of the context. -/
theorem honoured_iff (h : p.context fd = some ctx) (hb : Blocking ctx) {calls : List SetCall}
    (hcalls : ∀ c ∈ calls, (c.timeout / 1000).toNat < 2 ^ 31) :
    Honoured p fd calls ↔ ∀ type, ctx.getTimeout type = (lastSet type calls).getD (-1) := by
  constructor
  · intro hon type
    rw [← getTimeout_context h]
    exact (hon type).1
  · intro hall type
    have htimer : timerOf (ctx.getTimeout type) = lastSet type calls := by
      rw [hall type]
      cases hlast : lastSet type calls with
      | none => rfl
      | some v => exact if_pos (lastSet_ne hcalls hlast)
    refine ⟨(getTimeout_context h type).trans (hall type), ?_, ?_⟩
    · intro results timer hmem
      rw [doIo_blocking h hb] at hmem
      rw [timer_of_mem_retry hmem, htimer]
    · intro w rs
      rw [doIo_blocking h hb, ← htimer]
      exact retry_eagain _ w rs

/-- With hooks enabled the call of `setsockopt_f` is all that the hook does. -/
theorem run_enabled (calls : List SetCall) (p : Process) (fd : Nat) :
    calls.foldl (SetCall.exec true fd) p = p := by
  induction calls with
  | nil => rfl
  | cons c calls ih => exact ih

theorem exec_disabled (h : p.context fd = some ctx) {c : SetCall}
    (hc : (c.timeout / 1000).toNat < 2 ^ 31) :
    (c.exec false fd p).context fd = some (ctx.setTimeout c.type c.timeout) := by
  show (p.modify fd _).context fd = _
  rw [Process.context_modify, h, Option.map_some, millis_ofTimeout hc]

theorem getTimeout_setTimeout (ctx : FdContext) (type type' : TimeoutOption) (v : UInt64) :
    (ctx.setTimeout type' v).getTimeout type = if type' = type then v else ctx.getTimeout type := by
  cases type <;> cases type' <;> rfl

theorem Blocking.setTimeout (h : Blocking ctx) (type : TimeoutOption) (v : UInt64) :
    Blocking (ctx.setTimeout type v) := by
  cases type <;> exact ⟨h.isClosed, h.isSocket, h.isUserNonBlock⟩

theorem run_disabled {calls : List SetCall} (h : p.context fd = some ctx) (hb : Blocking ctx)
    (hcalls : ∀ c ∈ calls, (c.timeout / 1000).toNat < 2 ^ 31) {v₀ : TimeoutOption → Option UInt64}
    (hv₀ : ∀ type, ctx.getTimeout type = (v₀ type).getD (-1)) :
    ∃ ctx', (calls.foldl (SetCall.exec false fd) p).context fd = some ctx' ∧ Blocking ctx' ∧
      ∀ type, ctx'.getTimeout type =
        (calls.foldl (SetCall.next type) (v₀ type)).getD (-1) := by
  induction calls generalizing p ctx v₀ with
  | nil => exact ⟨ctx, h, hb, hv₀⟩
  | cons c calls ih =>
    refine ih (exec_disabled h (hcalls c List.mem_cons_self)) (hb.setTimeout c.type c.timeout)
      (fun c' hc' => hcalls c' (List.mem_cons_of_mem c hc')) ?_
    intro type
    rw [getTimeout_setTimeout, SetCall.next]
    split
    · rfl
    · exact hv₀ type

end

/-- **The timeouts of a registered socket are honoured just when they are set with hooks disabled,
or not at all**: with hooks enabled, `setsockopt` returns before it has stored the timeout. -/
theorem honoured_iff_disabled (m : FdManager) (hm : m.Reachable) (kernel : Kernel) (fd : Nat)
    (file : File) (hfile : kernel fd = some file) (hsock : file.isSocket = true) (p₀ : Process)
    (hreg : Process.register ⟨m, kernel⟩ fd = some p₀) (enabled : Bool) (calls : List SetCall)
    (hcalls : ∀ c ∈ calls, (c.timeout / 1000).toNat < 2 ^ 31) :
    Honoured (calls.foldl (SetCall.exec enabled fd) p₀) fd calls ↔
      enabled = false ∨ calls = [] := by
  have hctx := register_context (p := ⟨m, kernel⟩) hm.wf hfile hsock hreg
  have hb : Blocking { isInit := true, isSocket := true, isSysNonBlock := true } := ⟨rfl, rfl, rfl⟩
  have hnone (type : TimeoutOption) : FdContext.getTimeout
      { isInit := true, isSocket := true, isSysNonBlock := true } type =
        Option.getD (none : Option UInt64) (-1) := by
    cases type <;> rfl
  cases enabled with
  | false =>
    obtain ⟨ctx', hctx', hb', hall⟩ := run_disabled hctx hb hcalls hnone
    rw [honoured_iff hctx' hb' hcalls]
    exact ⟨fun _ => .inl rfl, fun _ => hall⟩
  | true =>
    rw [run_enabled, honoured_iff hctx hb hcalls]
    constructor
    · intro hall
      right
      -- the value of the last call is not the one of the new context
      by_contra hne
      obtain ⟨init, c, rfl⟩ := calls.eq_nil_or_concat'.resolve_left hne
      have hlast : lastSet c.type (init ++ [c]) = some c.timeout := by
        rw [lastSet, List.foldl_append]
        exact if_pos rfl
      have hget := hall c.type
      rw [hlast, hnone c.type] at hget
      exact lastSet_ne hcalls hlast hget.symm
    · rintro (hfalse | rfl)
      · cases hfalse
      · exact hnone

/-- Two timeouts for reading and one for writing, set with hooks disabled. -/
theorem honoured_iff_disabled_three_calls :
    ∃ p₀, Process.register ⟨.init, socketThree⟩ 3 = some p₀ ∧
      Honoured (List.foldl (SetCall.exec false 3) p₀ [⟨.rcvtimeo, 1500, 0⟩, ⟨.sndtimeo, 20, 0⟩,
        ⟨.rcvtimeo, 2500, 0⟩]) 3 [⟨.rcvtimeo, 1500, 0⟩, ⟨.sndtimeo, 20, 0⟩, ⟨.rcvtimeo, 2500, 0⟩] :=
  ⟨_, rfl, (honoured_iff_disabled .init ⟨[], .init, rfl, rfl⟩ socketThree 3 ⟨true, 2⟩ rfl rfl _ rfl
    false [⟨.rcvtimeo, 1500, 0⟩, ⟨.sndtimeo, 20, 0⟩, ⟨.rcvtimeo, 2500, 0⟩] (by decide)).mpr
      (.inl rfl)⟩

/-- A timeout of 1500 ms that is set with hooks enabled is not kept. -/
theorem enabled_loses_timeout :
    ¬ ∀ p₀, Process.register ⟨.init, socketThree⟩ 3 = some p₀ →
      ∀ calls : List SetCall, (∀ c ∈ calls, (c.timeout / 1000).toNat < 2 ^ 31) →
        Honoured (calls.foldl (SetCall.exec true 3) p₀) 3 calls := by
  intro h
  have hget := (h _ rfl [⟨.rcvtimeo, 1500, 0⟩] (by decide) .rcvtimeo).1
  exact absurd hget (by decide)

end Luwu.Hook
