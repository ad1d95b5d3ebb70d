import Mathlib.Algebra.Group.Int.Defs
import Luwu.Hook.FdManager

/-!
# Descriptors as signed integers

The functions of `IOManager` and `FdManager` compare a descriptor with the size of their table, cast
to `int`, and then use it as an index.  `ContextTable` and `FdManager` have the tables for the
descriptors from 0 on; here the descriptor is any `int`, and an index can miss the table.
-/

namespace Luwu.Descriptors

open Lib ContextTable

inductive Fault where
  /-- An index outside the table. -/
  | index (i : Int)
  /-- `fd * 2` is no `int`. -/
  | overflow (fd : Int)
  /-- A null `fdContext`. -/
  | null
deriving DecidableEq, Repr

/-- `(int) size`. -/
def castInt (size : Nat) : Int := (BitVec.ofNat 32 size).toInt

/-- `fd * 2`, as the `size_t` it is passed as. -/
def twice (fd : Int) : Except Fault Nat :=
  if -2147483648 ≤ fd * 2 ∧ fd * 2 < 2147483648 then .ok (fd * 2 % 2 ^ 64).toNat
  else .error (.overflow fd)

/-- The slot of a table. -/
def slot (xs : List (Option Nat)) (fd : Int) : Except Fault (Option Nat) :=
  if h : 0 ≤ fd ∧ fd.toNat < xs.length then .ok xs[fd.toNat] else .error (.index fd)

/-- An assignment to the slot. -/
def store (xs : List (Option Nat)) (fd : Int) (x : Option Nat) : Except Fault (List (Option Nat)) :=
  if 0 ≤ fd ∧ fd.toNat < xs.length then .ok (xs.set fd.toNat x) else .error (.index fd)

/-! ## The functions of `IOManager` -/

/-- `m_fdContexts[fd]`, to be dereferenced. -/
def fdContext (t : ContextTable) (fd : Int) : Except Fault Nat := do
  match ← slot t.fdContexts fd with
  | some p => pure p
  | none => throw .null

/-- The read lock of `addEvent`; no context where the table is too short. -/
def addEvent (t : ContextTable) (fd : Int) : Except Fault (Option Nat) :=
  if castInt t.fdContexts.length > fd then some <$> fdContext t fd else pure none

/-- The write lock of `addEvent`. -/
def grow (t : ContextTable) (fd : Int) : Except Fault (Nat × ContextTable) := do
  let size ← twice fd
  let t := t.contextResize size
  let p ← fdContext t fd
  pure (p, t)

/-- The read lock of `delEvent`, `cancelEvent` and `cancelAll`. -/
def find (t : ContextTable) (fd : Int) : Except Fault (Option Nat) :=
  if castInt t.fdContexts.length ≤ fd then pure none else some <$> fdContext t fd

/-- Some of the events of a descriptor are removed if one of them is registered; `ctl` says whether
`epoll_ctl` succeeds. -/
def remove (t : ContextTable) (fd : Int) (events : List Event) (ctl : Bool) :
    Except Fault (Bool × ContextTable) := do
  match ← find t fd with
  | none => pure (false, t)
  | some p =>
    if (t.objects[p]?.any fun o => events.any o.event) ∧ ctl then
      pure (true, events.foldl (fun t e => t.setEvent p e false) t)
    else pure (false, t)

def delEvent (t : ContextTable) (fd : Int) (event : Event) (ctl : Bool) :
    Except Fault (Bool × ContextTable) := remove t fd [event] ctl

def cancelEvent (t : ContextTable) (fd : Int) (event : Event) (ctl : Bool) :
    Except Fault (Bool × ContextTable) := remove t fd [event] ctl

def cancelAll (t : ContextTable) (fd : Int) (ctl : Bool) : Except Fault (Bool × ContextTable) :=
  remove t fd [.read, .write] ctl

/-! ## The functions of `FdManager` -/

/-- The read lock of `get`; no result where a context is to be made. -/
def get (m : Hook.FdManager) (fd : Int) (autoCreate : Bool) :
    Except Fault (Option (Option Nat)) :=
  if fd = -1 then pure (some none)
  else if castInt m.fds.length ≤ fd then
    if autoCreate = false then pure (some none) else pure none
  else do
    let p ← slot m.fds fd
    if p.isSome ∨ autoCreate = false then pure (some p) else pure none

/-- The write lock of `get`, with the context it has made. -/
def create (m : Hook.FdManager) (fd : Int) (ctx : Hook.FdContext) :
    Except Fault Hook.FdManager := do
  let fds ← if castInt m.fds.length ≤ fd then resize m.fds <$> twice fd else pure m.fds
  let fds ← store fds fd (some m.contexts.length)
  pure { fds, contexts := m.contexts ++ [ctx] }

def del (m : Hook.FdManager) (fd : Int) : Except Fault Hook.FdManager :=
  if castInt m.fds.length ≤ fd then pure m
  else do
    let fds ← store m.fds fd none
    pure { m with fds }

/-! ## Runs -/

/-- The tables, with the calls that are between their locks. -/
structure Tables where
  contexts : ContextTable
  calls : Hook.Calls

/-- A critical section, or what else changes the tables. -/
inductive Act where
  /-- The read lock of `addEvent`. -/
  | addEvent (w : Nat) (fd : Int32)
  /-- Its write lock. -/
  | grow (w : Nat)
  /-- The rest of it, under the mutex of the context. -/
  | register (w : Nat) (event : Event) (ctl : Bool)
  | delEvent (fd : Int32) (event : Event) (ctl : Bool)
  | cancelEvent (fd : Int32) (event : Event) (ctl : Bool)
  | cancelAll (fd : Int32) (ctl : Bool)
  /-- The read lock of `get`. -/
  | get (w : Nat) (fd : Int32) (autoCreate : Bool)
  /-- Its write lock. -/
  | create (w : Nat)
  | del (fd : Int32)
  /-- A setting made through a pointer that `get` returned. -/
  | modify (i : Nat) (f : Hook.FdContext → Hook.FdContext)
  /-- Descriptors are opened or closed. -/
  | kernel (k : Hook.Kernel)

/-- What a section returns to the caller. -/
inductive Answer where
  | bool (b : Bool)
  | ptr (p : Option Nat)
  | void
  /-- The call goes on. -/
  | later
deriving DecidableEq, Repr

/-- `false`, a null pointer or nothing. -/
def Answer.nothing : Answer → Prop
  | bool b => b = false
  | ptr p => p = none
  | void => True
  | later => False

namespace Tables

def init : Tables := { contexts := .init, calls := .init }

def setContexts (s : Tables) (t : ContextTable) : Tables := { s with contexts := t }
def setCalls (s : Tables) (c : Hook.Calls) : Tables := { s with calls := c }

end Tables

open Tables

/-- A section, where its thread has come to it. -/
def exec (s : Tables) : Act → Option (Except Fault (Answer × Tables))
  | .addEvent w fd =>
    if s.contexts.threads w = .idle then
      some ((addEvent s.contexts fd.toInt).map fun p =>
        (.later, s.setContexts
          (s.contexts.setThread w (p.elim (.growing fd.toInt.toNat) .holding))))
    else none
  | .grow w =>
    match s.contexts.threads w with
    | .growing fd =>
      some ((grow s.contexts fd).map fun r =>
        (.later, s.setContexts (r.2.setThread w (.holding r.1))))
    | _ => none
  | .register w event ctl =>
    match s.contexts.threads w with
    | .holding p =>
      let t := if ctl then s.contexts.setEvent p event true else s.contexts
      some (.ok (.bool ctl, s.setContexts (t.setThread w .idle)))
    | _ => none
  | .delEvent fd event ctl =>
    some ((delEvent s.contexts fd.toInt event ctl).map fun r => (.bool r.1, s.setContexts r.2))
  | .cancelEvent fd event ctl =>
    some ((cancelEvent s.contexts fd.toInt event ctl).map fun r => (.bool r.1, s.setContexts r.2))
  | .cancelAll fd ctl =>
    some ((cancelAll s.contexts fd.toInt ctl).map fun r => (.bool r.1, s.setContexts r.2))
  | .get w fd autoCreate =>
    if s.calls.pending w = none then
      some ((get s.calls.manager fd.toInt autoCreate).map fun r =>
        match r with
        | some (some p) => (.ptr (some p), s.setCalls { s.calls with
            returned := s.calls.returned ++ [(fd.toInt.toNat, p)] })
        | some none => (.ptr none, s)
        | none => (.later, s.setCalls { s.calls with
            pending := Function.update s.calls.pending w (some fd.toInt.toNat) }))
    else none
  | .create w =>
    match s.calls.pending w with
    | some fd =>
      let (ctx, kernel) := Hook.FdContext.new s.calls.kernel fd
      some ((create s.calls.manager fd ctx).map fun manager =>
        (.ptr (some s.calls.manager.contexts.length), s.setCalls { s.calls with
          manager, kernel, pending := Function.update s.calls.pending w none
          returned := s.calls.returned ++ [(fd, s.calls.manager.contexts.length)] }))
    | none => none
  | .del fd =>
    some ((del s.calls.manager fd.toInt).map fun manager =>
      (.void, s.setCalls { s.calls with manager }))
  | .modify i f =>
    some (.ok (.void, s.setCalls { s.calls with manager := s.calls.manager.modify i f }))
  | .kernel k => some (.ok (.void, s.setCalls { s.calls with kernel := k }))

def step (s : Tables) (a : Act) : Option Tables :=
  (exec s a).bind fun r => r.toOption.map Prod.snd

/-! The calls of a `Socket`, which pass its `m_sock`. -/

namespace Socket

def cancelRead (sock : Int32) (ctl : Bool) : Act := .cancelEvent sock .read ctl
def cancelWrite (sock : Int32) (ctl : Bool) : Act := .cancelEvent sock .write ctl
def cancelAccept (sock : Int32) (ctl : Bool) : Act := .cancelEvent sock .read ctl
def cancelAll (sock : Int32) (ctl : Bool) : Act := .cancelAll sock ctl

end Socket

/-- The descriptor of the section is one that the table cannot hold. -/
def CannotHold (s : Tables) : Act → Prop
  | .addEvent _ fd => fd.toInt < 0
  | .grow w => ∀ fd, s.contexts.threads w = .growing fd → 2 ^ 30 ≤ fd
  | .register .. => False
  | .delEvent fd .. => fd.toInt < 0 ∨ s.contexts.fdContexts.length ≤ fd.toInt
  | .cancelEvent fd .. => fd.toInt < 0 ∨ s.contexts.fdContexts.length ≤ fd.toInt
  | .cancelAll fd .. => fd.toInt < 0 ∨ s.contexts.fdContexts.length ≤ fd.toInt
  | .get _ fd autoCreate =>
    fd.toInt < 0 ∨ autoCreate = false ∧ s.calls.manager.fds.length ≤ fd.toInt
  | .create w =>
    ∀ fd, s.calls.pending w = some fd → s.calls.manager.fds.length ≤ fd ∧ 2 ^ 30 ≤ fd
  | .del fd => fd.toInt < 0 ∨ s.calls.manager.fds.length ≤ fd.toInt
  | .modify .. => False
  | .kernel .. => False

/-- The section gives nothing for a descriptor that the table cannot hold. -/
def Refused (s : Tables) (a : Act) (answer : Answer) (s' : Tables) : Prop :=
  CannotHold s a → answer.nothing ∧ s'.contexts.fdContexts = s.contexts.fdContexts ∧
    s'.calls.manager = s.calls.manager

/-- The section indexes within its table, and gives nothing for a descriptor that the table cannot
hold. -/
def Right (s : Tables) (a : Act) : Prop :=
  ∀ r, exec s a = some r → ∃ answer s', r = .ok (answer, s') ∧ Refused s a answer s'

/-- The descriptor is not negative, or is `-1` for `get`, and a table does not grow for one from
`2 ^ 30` on. -/
def Fits (s : Tables) : Act → Prop
  | .addEvent w fd => s.contexts.threads w = .idle → 0 ≤ fd.toInt
  | .grow w => ∀ fd, s.contexts.threads w = .growing fd → fd < 2 ^ 30
  | .register .. => True
  | .delEvent fd .. => 0 ≤ fd.toInt
  | .cancelEvent fd .. => 0 ≤ fd.toInt
  | .cancelAll fd .. => 0 ≤ fd.toInt
  | .get w fd _ => s.calls.pending w = none → -1 ≤ fd.toInt
  | .create w => ∀ fd, s.calls.pending w = some fd → s.calls.manager.fds.length ≤ fd → fd < 2 ^ 30
  | .del fd => 0 ≤ fd.toInt
  | .modify .. => True
  | .kernel .. => True

/-! ## Slots -/

theorem castInt_eq {size : Nat} (h : size < 2 ^ 31) : castInt size = size := by
  have hmod : size % 2 ^ 32 = size := Nat.mod_eq_of_lt (by omega)
  rw [castInt, BitVec.toInt_eq_toNat_of_lt (by rw [BitVec.toNat_ofNat, hmod]; omega),
    BitVec.toNat_ofNat, hmod]

theorem twice_ok {fd : Nat} (h : fd < 2 ^ 30) : twice fd = .ok (fd * 2) := by
  rw [twice, if_pos (by omega)]
  congr 1
  omega

theorem twice_overflow {fd : Nat} (h : 2 ^ 30 ≤ fd) : twice fd = .error (.overflow fd) :=
  if_neg (by omega)

section

variable {xs : List (Option Nat)} {fd : Int}

theorem slot_ok (hfd : 0 ≤ fd) (hlt : fd < xs.length) :
    ∃ x, xs[fd.toNat]? = some x ∧ slot xs fd = .ok x := by
  have hin : fd.toNat < xs.length := by omega
  exact ⟨xs[fd.toNat], List.getElem?_eq_getElem hin, dif_pos ⟨hfd, hin⟩⟩

theorem slot_negative (hfd : fd < 0) : slot xs fd = .error (.index fd) :=
  dif_neg fun h => absurd h.1 (by omega)

theorem store_ok (hfd : 0 ≤ fd) (hlt : fd < xs.length) (x : Option Nat) :
    store xs fd x = .ok (xs.set fd.toNat x) := if_pos ⟨hfd, by omega⟩

theorem store_negative (hfd : fd < 0) (x : Option Nat) : store xs fd x = .error (.index fd) :=
  if_neg fun h => absurd h.1 (by omega)

end

/-! ## The context table -/

section

variable {t : ContextTable} {fd : Int}

theorem fdContext_ok (h : ContextTable.Inv t) (hfd : 0 ≤ fd) (hlt : fd < t.fdContexts.length) :
    ∃ p, t.fdContexts[fd.toNat]? = some (some p) ∧ fdContext t fd = .ok p := by
  obtain ⟨x, hx, hslot⟩ := slot_ok hfd hlt
  obtain ⟨p, -, rfl, -⟩ := h.filled fd.toNat x hx
  refine ⟨p, hx, ?_⟩
  rw [fdContext, hslot]
  rfl

theorem fdContext_negative (hfd : fd < 0) : fdContext t fd = .error (.index fd) := by
  rw [fdContext, slot_negative hfd]
  rfl

theorem find_found (h : ContextTable.Inv t) (hsize : t.fdContexts.length < 2 ^ 31) (hfd : 0 ≤ fd)
    (hlt : fd < t.fdContexts.length) :
    ∃ p, t.fdContexts[fd.toNat]? = some (some p) ∧ find t fd = .ok (some p) := by
  obtain ⟨p, hp, hcontext⟩ := fdContext_ok h hfd hlt
  refine ⟨p, hp, ?_⟩
  rw [find, castInt_eq hsize, if_neg (by omega), hcontext]
  rfl

theorem find_short (hsize : t.fdContexts.length < 2 ^ 31) (hfd : t.fdContexts.length ≤ fd) :
    find t fd = .ok none := by
  rw [find, castInt_eq hsize, if_pos hfd]
  rfl

theorem find_negative (hsize : t.fdContexts.length < 2 ^ 31) (hfd : fd < 0) :
    find t fd = .error (.index fd) := by
  rw [find, castInt_eq hsize, if_neg (by omega), fdContext_negative hfd]
  rfl

/-- The guard of `addEvent` is that of the others, the other way round. -/
theorem addEvent_eq_find (t : ContextTable) (fd : Int) : addEvent t fd = find t fd := by
  rw [addEvent, find]
  by_cases h : castInt t.fdContexts.length ≤ fd
  · rw [if_neg (by omega), if_pos h]
  · rw [if_pos (by omega), if_neg h]

theorem grow_ok (h : ContextTable.Inv t) {fd : Nat} (hge : 32 ≤ fd) (hlt : fd < 2 ^ 30) :
    ∃ p, (t.contextResize (fd * 2)).fdContexts[fd]? = some (some p) ∧
      grow t fd = .ok (p, t.contextResize (fd * 2)) := by
  obtain ⟨hinv, hlen, -⟩ := h.contextResize (by omega : 32 ≤ fd * 2)
  obtain ⟨p, hp, hcontext⟩ := fdContext_ok hinv (Int.natCast_nonneg fd) (by rw [hlen]; omega)
  refine ⟨p, hp, ?_⟩
  rw [grow, twice_ok hlt]
  show (fdContext (t.contextResize (fd * 2)) fd >>= _) = _
  rw [hcontext]
  rfl

theorem grow_overflow {fd : Nat} (h : 2 ^ 30 ≤ fd) : grow t fd = .error (.overflow fd) := by
  rw [grow, twice_overflow h]
  rfl

theorem setEvents (h : ContextTable.Inv t) (p : Nat) (events : List Event) :
    (events.foldl (fun t e => t.setEvent p e false) t).fdContexts = t.fdContexts ∧
      ContextTable.Inv (events.foldl (fun t e => t.setEvent p e false) t) := by
  induction events generalizing t with
  | nil => exact ⟨rfl, h⟩
  | cons e events ih => exact ih (h.setEvent p e false)

/-- The table stays as it is, and a descriptor beyond it is refused. -/
theorem remove_ok (h : ContextTable.Inv t) (hsize : t.fdContexts.length < 2 ^ 31) (hfd : 0 ≤ fd)
    (events : List Event) (ctl : Bool) :
    ∃ b t', remove t fd events ctl = .ok (b, t') ∧ t'.fdContexts = t.fdContexts ∧
      ContextTable.Inv t' ∧ (t.fdContexts.length ≤ fd → b = false) := by
  by_cases hlen : t.fdContexts.length ≤ fd
  · -- the descriptor is refused at the guard
    refine ⟨false, t, ?_, rfl, h, fun _ => rfl⟩
    rw [remove, find_short hsize hlen]
    rfl
  · obtain ⟨p, -, hfind⟩ := find_found h hsize hfd (by omega)
    obtain ⟨htable, hinv⟩ := setEvents h p events
    -- it is in the table; now its events decide
    by_cases hevent : (t.objects[p]?.any fun o => events.any o.event) ∧ ctl
    · refine ⟨true, _, ?_, htable, hinv, fun hle => absurd hle hlen⟩
      rw [remove, hfind]
      exact if_pos hevent
    · refine ⟨false, t, ?_, rfl, h, fun _ => rfl⟩
      rw [remove, hfind]
      exact if_neg hevent

theorem remove_negative (hsize : t.fdContexts.length < 2 ^ 31) (hfd : fd < 0)
    (events : List Event) (ctl : Bool) : remove t fd events ctl = .error (.index fd) := by
  rw [remove, find_negative hsize hfd]
  rfl

end

/-! ## The table of `FdManager` -/

section

variable {m : Hook.FdManager} {fd : Int}

theorem get_eq (hsize : m.fds.length < 2 ^ 31) (hfd : 0 ≤ fd) (autoCreate : Bool) :
    get m fd autoCreate = .ok ((m.get fd.toNat).elim (if autoCreate then none else some none)
      fun p => some (some p)) := by
  rw [get, if_neg (by omega), castInt_eq hsize]
  by_cases hlen : m.fds.length ≤ fd
  · have hnone : m.get fd.toNat = none := by
      rw [Hook.FdManager.get, List.getElem?_eq_none (by omega)]
      rfl
    rw [if_pos hlen, hnone]
    cases autoCreate <;> rfl
  · obtain ⟨x, hx, hslot⟩ := slot_ok hfd (not_le.mp hlen)
    have hget : m.get fd.toNat = x := by
      rw [Hook.FdManager.get, hx]
      rfl
    rw [if_neg hlen, hslot, hget]
    cases x <;> cases autoCreate <;> rfl

theorem get_negative (hsize : m.fds.length < 2 ^ 31) (hfd : fd < -1) (autoCreate : Bool) :
    get m fd autoCreate = .error (.index fd) := by
  rw [get, if_neg (by omega), castInt_eq hsize, if_neg (by omega), slot_negative (by omega)]
  rfl

theorem create_eq (hpos : 0 < m.fds.length) (hsize : m.fds.length < 2 ^ 31) {fd : Nat}
    (hfits : m.fds.length ≤ fd → fd < 2 ^ 30) (ctx : Hook.FdContext) :
    ∃ m', m.create fd ctx = some m' ∧ create m fd ctx = .ok m' ∧ m'.fds.length < 2 ^ 31 := by
  rw [Hook.FdManager.create, if_neg fun h => h.2 (decide_eq_true (hfits h.1)), create,
    castInt_eq hsize]
  refine ⟨_, rfl, ?_, ?_⟩
  · by_cases hlen : m.fds.length ≤ fd
    · -- the resize makes room for it
      have hin : (fd : Int) < (resize m.fds (fd * 2)).length := by
        rw [Hook.FdManager.resize_fds hpos hlen, List.length_append, List.length_replicate]
        omega
      rw [if_pos hlen, if_pos (by omega), twice_ok (hfits hlen)]
      show (store (resize m.fds (fd * 2)) fd _ >>= _) = _
      rw [store_ok (Int.natCast_nonneg fd) hin]
      rfl
    · rw [if_neg hlen, if_neg (by omega)]
      show (store m.fds fd _ >>= _) = _
      rw [store_ok (Int.natCast_nonneg fd) (by omega)]
      rfl
  · show (List.set _ fd _).length < 2 ^ 31
    rw [List.length_set]
    split
    · next hlen =>
      have hlt := hfits hlen
      rw [Hook.FdManager.resize_fds hpos hlen, List.length_append, List.length_replicate]
      omega
    · exact hsize

theorem create_overflow (hsize : m.fds.length < 2 ^ 31) {fd : Nat} (hlen : m.fds.length ≤ fd)
    (hfd : 2 ^ 30 ≤ fd) (ctx : Hook.FdContext) : create m fd ctx = .error (.overflow fd) := by
  rw [create, castInt_eq hsize, if_pos (by omega), twice_overflow hfd]
  rfl

theorem del_eq (hsize : m.fds.length < 2 ^ 31) (hfd : 0 ≤ fd) :
    del m fd = .ok (m.del fd.toNat) := by
  rw [del, castInt_eq hsize, Hook.FdManager.del]
  by_cases hlen : m.fds.length ≤ fd
  · rw [if_pos hlen, if_pos (by omega)]
    rfl
  · rw [if_neg hlen, if_neg (by omega), store_ok hfd (not_le.mp hlen)]
    rfl

theorem del_negative (hsize : m.fds.length < 2 ^ 31) (hfd : fd < 0) :
    del m fd = .error (.index fd) := by
  rw [del, castInt_eq hsize, if_neg (by omega), store_negative hfd]
  rfl

end

/-! ## Sections -/

/-- The tables are those of the two models, and their sizes are `int`s. -/
structure Inv (s : Tables) : Prop where
  contexts : ContextTable.Inv s.contexts
  contexts_lt : s.contexts.fdContexts.length < 2 ^ 31
  manager : Hook.Calls.Wf s.calls.manager
  fds_lt : s.calls.manager.fds.length < 2 ^ 31

theorem init_inv : Inv init where
  contexts := ContextTable.init_inv
  contexts_lt := by
    show ContextTable.init.fdContexts.length < 2 ^ 31
    rw [ContextTable.init_eq, length_newPtrs]
    decide
  manager := Hook.Calls.init_wf
  fds_lt := by
    show (List.replicate 64 none).length < 2 ^ 31
    rw [List.length_replicate]
    decide

section

variable {s s' : Tables} {a : Act} {fd : Int32} {r : Except Fault (Answer × Tables)}

theorem Inv.setContexts (h : Inv s) {t : ContextTable} (ht : ContextTable.Inv t)
    (hlt : t.fdContexts.length < 2 ^ 31) : Inv (s.setContexts t) := ⟨ht, hlt, h.manager, h.fds_lt⟩

theorem Inv.setCalls (h : Inv s) {c : Hook.Calls} (hc : Hook.Calls.Wf c.manager)
    (hlt : c.manager.fds.length < 2 ^ 31) : Inv (s.setCalls c) :=
  ⟨h.contexts, h.contexts_lt, hc, hlt⟩

/-- The section ends as it should, in a state like the one before. -/
def Ends (s : Tables) (a : Act) : Prop :=
  ∀ r, exec s a = some r → ∃ answer s', r = .ok (answer, s') ∧ Refused s a answer s' ∧ Inv s'

/-- The section fails. -/
def Fails (s : Tables) (a : Act) : Prop := ∃ e, exec s a = some (.error e)

/-- From 0 on, the read lock of `addEvent` is the one of the context table. -/
theorem addEvent_refines (h : Inv s) {w : Nat} (hidle : s.contexts.threads w = .idle)
    (hfd : 0 ≤ fd.toInt) :
    ∃ t, ContextTable.step s.contexts (.check w fd.toInt.toNat) = some t ∧
      exec s (.addEvent w fd) = some (.ok (.later, s.setContexts t)) := by
  have hint := fd.toInt_lt
  have hexec (p : Option Nat) (hp : addEvent s.contexts fd.toInt = .ok p) :
      exec s (.addEvent w fd) = some (.ok (.later, s.setContexts
        (s.contexts.setThread w (p.elim (.growing fd.toInt.toNat) .holding)))) := by
    rw [exec, if_pos hidle, hp]
    rfl
  rw [addEvent_eq_find] at hexec
  rw [ContextTable.step, if_pos ⟨hidle, by omega⟩]
  by_cases hlen : s.contexts.fdContexts.length ≤ fd.toInt
  · -- the thread goes for the write lock
    refine ⟨_, if_neg (by omega), hexec none (find_short h.contexts_lt hlen)⟩
  · obtain ⟨p, hp, hfind⟩ := find_found h.contexts h.contexts_lt hfd (not_le.mp hlen)
    refine ⟨_, ?_, hexec (some p) hfind⟩
    rw [if_pos (by omega), hp]
    rfl

/-- A descriptor below `2 ^ 30` gets its context, from the resize of the context table. -/
theorem grow_refines (h : Inv s) {w fd : Nat} (hw : s.contexts.threads w = .growing fd)
    (hfd : fd < 2 ^ 30) :
    ∃ t, ContextTable.step s.contexts (.grow w) = some t ∧
      exec s (.grow w) = some (.ok (.later, s.setContexts t)) ∧ t.fdContexts.length < 2 ^ 31 := by
  have hge := h.contexts.growing_ge w fd hw
  obtain ⟨-, hlen, -⟩ := h.contexts.contextResize (by omega : 32 ≤ fd * 2)
  obtain ⟨p, hp, hgrow⟩ := grow_ok h.contexts hge hfd
  refine ⟨(s.contexts.contextResize (fd * 2)).setThread w (.holding p), ?_, ?_, ?_⟩
  · simp only [ContextTable.step, hw, fits, decide_eq_true hfd, if_true, hp]
  · simp only [exec, hw, hgrow]
    rfl
  · show (s.contexts.contextResize (fd * 2)).fdContexts.length < 2 ^ 31
    omega

theorem get_refines (h : Inv s) {w : Nat} (hpending : s.calls.pending w = none)
    (hfd : 0 ≤ fd.toInt) (autoCreate : Bool) :
    ∃ c answer, Hook.Calls.step s.calls (.lookup w fd.toInt.toNat autoCreate) = some c ∧
      exec s (.get w fd autoCreate) = some (.ok (answer, s.setCalls c)) ∧
      c.manager = s.calls.manager ∧
      (autoCreate = false ∧ s.calls.manager.fds.length ≤ fd.toInt → answer.nothing) := by
  have hint := fd.toInt_lt
  simp only [exec, if_pos hpending, get_eq h.fds_lt hfd]
  rw [Hook.Calls.step, if_pos ⟨hpending, by omega⟩]
  cases hget : s.calls.manager.get fd.toInt.toNat with
  | some p =>
    refine ⟨_, _, rfl, rfl, rfl, fun hlen => ?_⟩
    rw [Hook.FdManager.get, List.getElem?_eq_none (by omega)] at hget
    cases hget
  | none =>
    -- a null slot, or none at all
    cases autoCreate with
    | true => exact ⟨_, _, rfl, rfl, rfl, fun hlen => absurd hlen.1 (by decide)⟩
    | false => exact ⟨_, _, rfl, rfl, rfl, fun _ => rfl⟩

theorem create_refines (h : Inv s) {w fd : Nat} (hpending : s.calls.pending w = some fd)
    (hfits : s.calls.manager.fds.length ≤ fd → fd < 2 ^ 30) :
    ∃ c answer, Hook.Calls.step s.calls (.create w) = some c ∧
      exec s (.create w) = some (.ok (answer, s.setCalls c)) ∧ c.manager.fds.length < 2 ^ 31 := by
  obtain ⟨m', hm', hcreate, hlt⟩ := create_eq h.manager.size h.fds_lt hfits
    (Hook.FdContext.new s.calls.kernel fd).1
  refine ⟨{ manager := m', kernel := (Hook.FdContext.new s.calls.kernel fd).2
            pending := Function.update s.calls.pending w none
            returned := s.calls.returned ++ [(fd, s.calls.manager.contexts.length)] },
    .ptr (some s.calls.manager.contexts.length), ?_, ?_, hlt⟩
  · simp only [Hook.Calls.step, hpending, hm']
  · simp only [exec, hpending, hcreate]
    rfl

theorem Ends.of_exec {answer : Answer} (hexec : exec s a = some (.ok (answer, s')))
    (hrefused : Refused s a answer s') (hinv : Inv s') : Ends s a := by
  intro r hr
  rw [hexec] at hr
  cases hr
  exact ⟨answer, s', rfl, hrefused, hinv⟩

theorem Ends.of_none (hexec : exec s a = none) : Ends s a := by
  intro r hr
  rw [hexec] at hr
  cases hr

theorem addEvent_ends (h : Inv s) {w : Nat} (hfits : Fits s (.addEvent w fd)) :
    Ends s (.addEvent w fd) := by
  by_cases hidle : s.contexts.threads w = .idle
  · have hfd : 0 ≤ fd.toInt := hfits hidle
    obtain ⟨t, ht, hexec⟩ := addEvent_refines h hidle hfd
    obtain ⟨hinv, ⟨htable, -⟩ | ⟨_, _, hgrow, -⟩⟩ := ContextTable.step_cases h.contexts ht
    · -- under the read lock the table stays as it is
      refine .of_exec hexec (fun hneg => absurd hneg (not_lt.mpr hfd)) (h.setContexts hinv ?_)
      rw [htable]
      exact h.contexts_lt
    · cases hgrow
  · exact .of_none (if_neg hidle)

theorem grow_ends (h : Inv s) {w : Nat} (hfits : Fits s (.grow w)) : Ends s (.grow w) := by
  cases hw : s.contexts.threads w with
  | growing fd =>
    have hfd : fd < 2 ^ 30 := hfits fd hw
    obtain ⟨t, ht, hexec, hlt⟩ := grow_refines h hw hfd
    refine .of_exec hexec (fun hlarge => absurd (hlarge fd hw) (not_le.mpr hfd)) ?_
    exact h.setContexts (ContextTable.step_cases h.contexts ht).1 hlt
  | idle => exact .of_none (by simp only [exec, hw])
  | holding p => exact .of_none (by simp only [exec, hw])

theorem register_ends (h : Inv s) (w : Nat) (event : Event) (ctl : Bool) :
    Ends s (.register w event ctl) := by
  cases hw : s.contexts.threads w with
  | holding p =>
    refine .of_exec (by simp only [exec, hw]; rfl) (fun hno => absurd hno id) (h.setContexts ?_ ?_)
    · refine ContextTable.Inv.setThread ?_ w (by simp)
      split
      · exact h.contexts.setEvent p event true
      · exact h.contexts
    · cases ctl <;> exact h.contexts_lt
  | idle => exact .of_none (by simp only [exec, hw])
  | growing fd => exact .of_none (by simp only [exec, hw])

theorem remove_ends (h : Inv s) {events : List Event} {ctl : Bool}
    (hexec : exec s a = some ((remove s.contexts fd.toInt events ctl).map fun r =>
      (.bool r.1, s.setContexts r.2)))
    (hcannot : CannotHold s a → fd.toInt < 0 ∨ s.contexts.fdContexts.length ≤ fd.toInt)
    (hfd : 0 ≤ fd.toInt) : Ends s a := by
  obtain ⟨b, t, hremove, htable, hinv, hfalse⟩ := remove_ok h.contexts h.contexts_lt hfd events ctl
  rw [hremove] at hexec
  refine .of_exec hexec (fun hno => ⟨?_, htable, rfl⟩) (h.setContexts hinv (by
    rw [htable]
    exact h.contexts_lt))
  rcases hcannot hno with hneg | hlen
  · exact absurd hneg (not_lt.mpr hfd)
  · exact hfalse hlen

theorem get_ends (h : Inv s) {w : Nat} {autoCreate : Bool} (hfits : Fits s (.get w fd autoCreate)) :
    Ends s (.get w fd autoCreate) := by
  by_cases hpending : s.calls.pending w = none
  · have hfd : -1 ≤ fd.toInt := hfits hpending
    by_cases hneg : fd.toInt < 0
    · -- the one negative descriptor with a guard of its own
      have hone : fd.toInt = -1 := by omega
      have hexec : exec s (.get w fd autoCreate) = some (.ok (.ptr none, s)) := by
        rw [exec, if_pos hpending, get, if_pos hone]
        rfl
      exact .of_exec hexec (fun _ => ⟨rfl, rfl, rfl⟩) h
    · obtain ⟨c, answer, hc, hexec, hmanager, hnothing⟩ :=
        get_refines h hpending (not_lt.mp hneg) autoCreate
      refine .of_exec hexec (fun hno => ⟨hnothing (hno.resolve_left hneg), rfl, hmanager⟩)
        (h.setCalls (Hook.Calls.step_wf h.manager hc) ?_)
      rw [hmanager]
      exact h.fds_lt
  · exact .of_none (if_neg hpending)

theorem create_ends (h : Inv s) {w : Nat} (hfits : Fits s (.create w)) : Ends s (.create w) := by
  cases hpending : s.calls.pending w with
  | some fd =>
    obtain ⟨c, answer, hc, hexec, hlt⟩ := create_refines h hpending (hfits fd hpending)
    refine .of_exec hexec (fun hno => ?_) (h.setCalls (Hook.Calls.step_wf h.manager hc) hlt)
    obtain ⟨hlen, hlarge⟩ := hno fd hpending
    exact absurd (hfits fd hpending hlen) (not_lt.mpr hlarge)
  | none => exact .of_none (by simp only [exec, hpending])

theorem del_ends (h : Inv s) (hfd : 0 ≤ fd.toInt) : Ends s (.del fd) := by
  have hexec : exec s (.del fd) = some (.ok (.void, s.setCalls { s.calls with
      manager := s.calls.manager.del fd.toInt.toNat })) := by
    rw [exec, del_eq h.fds_lt hfd]
    rfl
  refine .of_exec hexec (fun hno => ⟨trivial, rfl, ?_⟩) (h.setCalls ?_ ?_)
  · rcases hno with hneg | hlen
    · exact absurd hneg (not_lt.mpr hfd)
    · exact if_pos (by omega)
  · exact Hook.Calls.step_wf (a := .del fd.toInt.toNat) h.manager rfl
  · show (s.calls.manager.del fd.toInt.toNat).fds.length < 2 ^ 31
    rw [Hook.FdManager.length_del]
    exact h.fds_lt

theorem ends_of_fits (h : Inv s) (hfits : Fits s a) : Ends s a := by
  cases a with
  | addEvent w fd => exact addEvent_ends h hfits
  | grow w => exact grow_ends h hfits
  | register w event ctl => exact register_ends h w event ctl
  | delEvent fd event ctl => exact remove_ends h rfl id hfits
  | cancelEvent fd event ctl => exact remove_ends h rfl id hfits
  | cancelAll fd ctl => exact remove_ends h rfl id hfits
  | get w fd autoCreate => exact get_ends h hfits
  | create w => exact create_ends h hfits
  | del fd => exact del_ends h hfits
  | modify i f =>
    exact .of_exec rfl (fun hno => absurd hno id) (h.setCalls
      (Hook.Calls.step_wf (a := .modify i f) h.manager rfl) h.fds_lt)
  | kernel k => exact .of_exec rfl (fun hno => absurd hno id) (h.setCalls h.manager h.fds_lt)

theorem fails_of_not_fits (h : Inv s) (hfits : ¬ Fits s a) : Fails s a := by
  cases a with
  | addEvent w fd =>
    obtain ⟨hidle, hfd⟩ := Classical.not_imp.mp hfits
    refine ⟨.index fd.toInt, ?_⟩
    rw [exec, if_pos hidle, addEvent_eq_find, find_negative h.contexts_lt (not_le.mp hfd)]
    rfl
  -- the table is resized to `fd * 2` in a section of its own
  | grow w =>
    obtain ⟨fd, hfd⟩ := not_forall.mp hfits
    obtain ⟨hw, hlarge⟩ := Classical.not_imp.mp hfd
    refine ⟨.overflow fd, ?_⟩
    simp only [exec, hw, grow_overflow (not_lt.mp hlarge)]
    rfl
  | register w event ctl => exact absurd trivial hfits
  | delEvent fd event ctl => exact ⟨_, by
      rw [exec, delEvent, remove_negative h.contexts_lt (not_le.mp hfits)]; rfl⟩
  | cancelEvent fd event ctl => exact ⟨_, by
      rw [exec, cancelEvent, remove_negative h.contexts_lt (not_le.mp hfits)]; rfl⟩
  | cancelAll fd ctl => exact ⟨_, by
      rw [exec, cancelAll, remove_negative h.contexts_lt (not_le.mp hfits)]; rfl⟩
  | get w fd autoCreate =>
    obtain ⟨hpending, hfd⟩ := Classical.not_imp.mp hfits
    refine ⟨.index fd.toInt, ?_⟩
    rw [exec, if_pos hpending, get_negative h.fds_lt (not_le.mp hfd)]
    rfl
  | create w =>
    obtain ⟨fd, hfd⟩ := not_forall.mp hfits
    obtain ⟨hpending, hlarge⟩ := Classical.not_imp.mp hfd
    obtain ⟨hlen, hlarge⟩ := Classical.not_imp.mp hlarge
    refine ⟨.overflow fd, ?_⟩
    simp only [exec, hpending, create_overflow h.fds_lt hlen (not_lt.mp hlarge)]
    rfl
  | del fd => exact ⟨_, by rw [exec, del_negative h.fds_lt (not_le.mp hfits)]; rfl⟩
  | modify i f => exact absurd trivial hfits
  | kernel k => exact absurd trivial hfits

/-- A section is right just when its descriptor fits. -/
theorem right_iff (h : Inv s) : Right s a ↔ Fits s a := by
  constructor
  · intro hright
    by_contra hfits
    -- a section that fails is not right
    obtain ⟨e, he⟩ := fails_of_not_fits h hfits
    obtain ⟨answer, s', hr, -⟩ := hright _ he
    cases hr
  · intro hfits r hr
    obtain ⟨answer, s', hok, hrefused, -⟩ := ends_of_fits h hfits r hr
    exact ⟨answer, s', hok, hrefused⟩

/-- The calls of a `Socket` are right while it is open. -/
theorem socket_cancel_iff (h : Inv s) {sock : Int32} {ctl : Bool}
    (ha : a ∈ [Socket.cancelRead sock ctl, Socket.cancelWrite sock ctl,
      Socket.cancelAccept sock ctl, Socket.cancelAll sock ctl]) : Right s a ↔ 0 ≤ sock.toInt := by
  rw [right_iff h]
  simp only [List.mem_cons, List.not_mem_nil, or_false] at ha
  rcases ha with rfl | rfl | rfl | rfl <;> exact Iff.rfl

theorem step_inv (h : Inv s) (hfits : Fits s a) (hstep : step s a = some s') : Inv s' := by
  obtain ⟨r, hr, hs⟩ := Option.bind_eq_some_iff.mp hstep
  obtain ⟨answer, s'', rfl, -, hinv⟩ := ends_of_fits h hfits r hr
  cases hs
  exact hinv

end

/-- **The tables are indexed within their size, and nothing is given for a descriptor they cannot
hold, just when the descriptors fit**: in every run of calls by any threads, every section is right
exactly when no descriptor is negative, but for the `-1` of `get`, and none from `2 ^ 30` on has
the table grow. -/
theorem tables_indexed_iff (acts : List Act) :
    AllSteps step Right init acts ↔ AllSteps step Fits init acts := by
  constructor
  · exact AllSteps.imp (fun s a s' h hright => step_inv h ((right_iff h).mp hright))
      (fun s a h => (right_iff h).mp) acts init init_inv
  · exact AllSteps.imp (fun s a s' h hfits => step_inv h hfits) (fun s a h => (right_iff h).mpr)
      acts init init_inv

/-- A closed `Socket`. -/
theorem cancelAll_closed : ¬ AllSteps step Right init [Socket.cancelAll (-1) true] := by
  intro hall
  have hopen : (0 : Int) ≤ (-1 : Int32).toInt := (right_iff (a := Socket.cancelAll (-1) true)
    init_inv).mp hall.1
  exact absurd hopen (by decide)

end Luwu.Descriptors
