import Mathlib.Data.List.Perm.Basic
import Mathlib.Logic.Function.Basic
import Luwu.Lib.Run

/-!
# The connection pool

`getConnection` hands out raw pointers wrapped into a `shared_ptr` whose deleter is `ReleasePtr`.
Both work on `m_coons` under the mutex, but delete connections and count them in `m_total` outside
of it.  A call in progress is therefore in one of several places, and the connections that it has
at that moment are its own.
-/

namespace Luwu

open Lib

namespace HttpConnectionPool

/-- An `HttpConnection`. -/
structure Conn where
  /-- `m_createTime`, which is never set. -/
  createTime : Nat := 0
  /-- `m_request`. -/
  request : Nat := 0
  isConnected : Bool := true
  deleted : Bool := false
  /-- How often `getConnection` has returned it. -/
  lendings : Nat := 0

/-- Where a call in progress is. -/
inductive Call where
  /-- `getConnection` after its lock: some of the invalid connections are deleted, and some are
  not. -/
  | deleting (gone rest : List Nat) (ptr : Option Nat)
  /-- There was no valid connection. -/
  | connecting
  /-- A connection was made, but not counted. -/
  | counting (c : Nat)
  | returning (c : Nat)
  /-- `ReleasePtr` after `++m_request`. -/
  | releasing (c : Nat)
  | dropping (c : Nat)
  /-- The connection was deleted, but is still counted. -/
  | uncounting (c : Nat)
  | pushing (c : Nat)
deriving DecidableEq, Repr

/-- The connections that the call has a pointer to, and that are not deleted. -/
def Call.owned : Call → List Nat
  | .deleting _ rest ptr => rest ++ ptr.toList
  | .connecting => []
  | .counting c | .returning c | .releasing c | .dropping c | .pushing c => [c]
  | .uncounting _ => []

/-- The connections of the call that `m_total` counts. -/
def Call.counted : Call → List Nat
  | .deleting gone rest ptr => gone ++ rest ++ ptr.toList
  | .connecting | .counting _ => []
  | .returning c | .releasing c | .dropping c | .uncounting c | .pushing c => [c]

end HttpConnectionPool

structure HttpConnectionPool where
  maxAliveTime : Nat
  maxRequest : Nat
  /-- `m_coons`; a pointer is the number of the connection. -/
  coons : List Nat := []
  total : UInt32 := 0
  /-- The connections made so far. -/
  conns : Nat → HttpConnectionPool.Conn := fun _ => {}
  made : Nat := 0
  /-- The connections that `getConnection` has returned, and whose holders have not let go of
  them. -/
  lent : List Nat := []
  /-- The calls in progress. -/
  calls : List HttpConnectionPool.Call := []

namespace HttpConnectionPool

/-- The loop of `getConnection`: the invalid connections, the first valid one, and the rest of the
list. -/
def scan (s : HttpConnectionPool) (now : Nat) : List Nat → List Nat × Option Nat × List Nat
  | [] => ([], none, [])
  | c :: cs =>
    if !(s.conns c).isConnected || decide ((s.conns c).createTime + s.maxAliveTime > now) then
      let (invalid, ptr, rest) := s.scan now cs
      (c :: invalid, ptr, rest)
    else ([], some c, cs)

def setConn (s : HttpConnectionPool) (c : Nat) (v : Conn) : HttpConnectionPool :=
  { s with conns := Function.update s.conns c v }

def delete (s : HttpConnectionPool) (c : Nat) : HttpConnectionPool :=
  s.setConn c { s.conns c with deleted := true }

/-- The next step of a call: the pool after it, and where the call is by then unless it has
returned. `ok` says whether the connection is established, and `now` is the time. -/
def advance (s : HttpConnectionPool) (ok : Bool) (now : Nat) :
    Call → HttpConnectionPool × Option Call
  | .deleting gone (c :: rest) ptr => (s.delete c, some (.deleting (gone ++ [c]) rest ptr))
  | .deleting gone [] ptr =>
    ({ s with total := s.total - UInt32.ofNat gone.length },
      some (match ptr with
        | some c => .returning c
        | none => .connecting))
  | .connecting =>
    if ok then ({ s.setConn s.made {} with made := s.made + 1 }, some (.counting s.made))
    else (s, none)
  | .counting c => ({ s with total := s.total + 1 }, some (.returning c))
  | .returning c =>
    ({ s.setConn c { s.conns c with lendings := (s.conns c).lendings + 1 } with
        lent := s.lent ++ [c] }, none)
  | .releasing c =>
    if !(s.conns c).isConnected || decide ((s.conns c).createTime + s.maxAliveTime ≥ now) ||
        decide ((s.conns c).request ≥ s.maxRequest) then (s, some (.dropping c))
    else (s, some (.pushing c))
  | .dropping c => (s.delete c, some (.uncounting c))
  | .uncounting _ => ({ s with total := s.total - 1 }, none)
  | .pushing c => ({ s with coons := s.coons ++ [c] }, none)

inductive Act where
  /-- A thread calls `getConnection ()`, up to the end of its lock. -/
  | getConnection (now : Nat)
  /-- The last holder of the connection lets go of it: `ReleasePtr`, up to `++m_request`. -/
  | release (c : Nat)
  /-- A step of the call at this place of the list. -/
  | next (k : Nat) (ok : Bool) (now : Nat)
  /-- The connection is lost. -/
  | disconnect (c : Nat)
  /-- A holder uses the connection. -/
  | use (c : Nat)

def step (s : HttpConnectionPool) : Act → Option HttpConnectionPool
  | .getConnection now =>
    let (invalid, ptr, rest) := s.scan now s.coons
    some { s with coons := rest, calls := .deleting [] invalid ptr :: s.calls }
  | .release c =>
    if c ∈ s.lent then
      some { s.setConn c { s.conns c with request := (s.conns c).request + 1 } with
        lent := s.lent.erase c, calls := .releasing c :: s.calls }
    else none
  | .next k ok now =>
    match s.calls[k]? with
    | some call =>
      let (s', new) := s.advance ok now call
      some { s' with calls := new.toList ++ s.calls.eraseIdx k }
    | none => none
  | .disconnect c => some (s.setConn c { s.conns c with isConnected := false })
  | .use c => if c ∈ s.lent then some s else none

/-- The connections whose memory the step accesses. -/
def touched (s : HttpConnectionPool) : Act → List Nat
  | .getConnection now => (s.scan now s.coons).1 ++ (s.scan now s.coons).2.1.toList
  | .release c => [c]
  | .next k _ _ =>
    match s.calls[k]? with
    | some (.deleting _ (c :: _) _) | some (.releasing c) | some (.dropping c) => [c]
    | _ => []
  | .disconnect _ => []
  | .use c => [c]

/-! ## Where the connections are -/

/-- In how many places a connection is. -/
def placesIn (coons lent : List Nat) (calls : List Call) (c : Nat) : Nat :=
  coons.count c + lent.count c + (calls.flatMap Call.owned).count c

def places (s : HttpConnectionPool) (c : Nat) : Nat := placesIn s.coons s.lent s.calls c

/-- Every connection is in one place at most, and those that are somewhere are not deleted. -/
structure Placed (s : HttpConnectionPool) : Prop where
  once : ∀ c, s.places c ≤ 1
  valid : ∀ c, 0 < s.places c → c < s.made ∧ (s.conns c).deleted = false

theorem count_single (c x : Nat) : List.count x [c] = if x = c then 1 else 0 := by
  rw [List.count_singleton]
  by_cases h : x = c
  · rw [if_pos h, if_pos (beq_iff_eq.mpr h.symm)]
  · rw [if_neg h, if_neg fun heq => h (beq_iff_eq.mp heq).symm]

theorem placesIn_cons (coons lent : List Nat) (call : Call) (R : List Call) (c : Nat) :
    placesIn coons lent (call :: R) c = placesIn coons lent R c + call.owned.count c := by
  simp only [placesIn, List.flatMap_cons, List.count_append]
  omega

theorem placesIn_perm (coons lent : List Nat) {l₁ l₂ : List Call} (h : l₁.Perm l₂) (c : Nat) :
    placesIn coons lent l₁ c = placesIn coons lent l₂ c := by
  simp only [placesIn, (h.flatMap_right Call.owned).count_eq c]

theorem placesIn_push (coons lent : List Nat) (R : List Call) (c x : Nat) :
    placesIn (coons ++ [c]) lent R x = placesIn coons lent R x + List.count x [c] := by
  simp only [placesIn, List.count_append]
  omega

theorem placesIn_lend (coons lent : List Nat) (R : List Call) (c x : Nat) :
    placesIn coons (lent ++ [c]) R x = placesIn coons lent R x + List.count x [c] := by
  simp only [placesIn, List.count_append]
  omega

section

variable {s : HttpConnectionPool} {R : List Call} {call : Call}

theorem Placed.perm {l : List Call} (h : Placed s) (hperm : s.calls.Perm l) :
    Placed { s with calls := l } where
  once c := (placesIn_perm s.coons s.lent hperm c).ge.trans (h.once c)
  valid c hc := h.valid c (Nat.lt_of_lt_of_le hc (placesIn_perm s.coons s.lent hperm c).ge)

/-- No connection gets to a place from nowhere, and nothing else about it changes. -/
theorem Placed.mono {s' : HttpConnectionPool} (h : Placed s)
    (hplaces : ∀ c, s'.places c ≤ s.places c) (hmade : s.made ≤ s'.made)
    (hdeleted : ∀ c, 0 < s'.places c → (s'.conns c).deleted = (s.conns c).deleted) : Placed s' where
  once c := (hplaces c).trans (h.once c)
  valid c hc := by
    obtain ⟨hlt, hvalid⟩ := h.valid c (Nat.lt_of_lt_of_le hc (hplaces c))
    exact ⟨Nat.lt_of_lt_of_le hlt hmade, (hdeleted c hc).trans hvalid⟩

theorem setConn_of_ne {c x : Nat} (h : x ≠ c) (v : Conn) : (s.setConn c v).conns x = s.conns x :=
  Function.update_of_ne h ..

theorem setConn_self (c : Nat) (v : Conn) : (s.setConn c v).conns c = v :=
  Function.update_self ..

theorem setConn_field {α : Type} (f : Conn → α) {c : Nat} {v : Conn} (h : f v = f (s.conns c))
    (x : Nat) : f ((s.setConn c v).conns x) = f (s.conns x) := by
  by_cases hx : x = c
  · rw [hx, setConn_self, h]
  · rw [setConn_of_ne hx]

theorem Placed.delete {s' : HttpConnectionPool} {c : Nat} (h : Placed s)
    (hconns : s'.conns = (s.delete c).conns) (hmade : s'.made = s.made)
    (hplaces : ∀ x, s'.places x + List.count x [c] ≤ s.places x) : Placed s' := by
  refine h.mono (fun x => le_trans (Nat.le_add_right _ _) (hplaces x)) hmade.ge ?_
  intro x hx
  have hne : x ≠ c := by
    intro heq
    have hle := hplaces x
    rw [count_single, if_pos heq] at hle
    have := h.once x
    omega
  rw [hconns]
  exact congrArg Conn.deleted (setConn_of_ne hne _)

theorem Placed.make {s' : HttpConnectionPool} (h : Placed s)
    (hconns : s'.conns = (s.setConn s.made {}).conns) (hmade : s'.made = s.made + 1)
    (hplaces : ∀ x, s'.places x = s.places x + List.count x [s.made]) : Placed s' := by
  have hnew : s.places s.made = 0 := by
    by_contra hne
    exact absurd (h.valid s.made (Nat.pos_of_ne_zero hne)).1 (Nat.lt_irrefl _)
  constructor
  · intro x
    have hx := h.once x
    rw [hplaces, count_single]
    split
    · next heq => rw [heq, hnew]
    · omega
  · intro x hx
    rw [hplaces, count_single] at hx
    rw [hmade, hconns]
    by_cases heq : x = s.made
    · rw [heq, setConn_self]
      exact ⟨Nat.lt_succ_self _, rfl⟩
    · rw [if_neg heq] at hx
      obtain ⟨hlt, hvalid⟩ := h.valid x hx
      rw [setConn_of_ne heq]
      exact ⟨Nat.lt_succ_of_lt hlt, hvalid⟩

theorem advance_placed (h : Placed { s with calls := call :: R }) (ok : Bool) (now : Nat) :
    Placed { (s.advance ok now call).1 with
      calls := (s.advance ok now call).2.toList ++ R } := by
  cases call with
  | deleting gone rest ptr =>
    cases rest with
    | cons c rest =>
      -- one connection of `invalid_coons` is deleted, and leaves the call that held it
      refine h.delete rfl rfl ?_
      intro x
      show placesIn s.coons s.lent (.deleting (gone ++ [c]) rest ptr :: R) x + _ ≤
        placesIn s.coons s.lent (.deleting gone (c :: rest) ptr :: R) x
      rw [placesIn_cons, placesIn_cons]
      have hcount : ([c] ++ (rest ++ ptr.toList)).count x =
          [c].count x + (rest ++ ptr.toList).count x := List.count_append
      show _ + (rest ++ ptr.toList).count x + _ ≤ _ + ([c] ++ (rest ++ ptr.toList)).count x
      omega
    | nil =>
      refine h.mono ?_ le_rfl fun _ _ => rfl
      intro x
      cases ptr with
      | some c => exact le_rfl
      | none => exact le_rfl
  | connecting =>
    cases ok with
    | false => exact h.mono (fun _ => le_rfl) le_rfl fun _ _ => rfl
    | true =>
      -- a new connection, held by the call that has made it
      refine h.make rfl rfl ?_
      intro x
      show placesIn s.coons s.lent (.counting s.made :: R) x =
        placesIn s.coons s.lent (.connecting :: R) x + _
      rw [placesIn_cons, placesIn_cons]
      rfl
  | counting c => exact h.mono (fun _ => le_rfl) le_rfl fun _ _ => rfl
  | returning c =>
    refine h.mono ?_ le_rfl fun x _ => setConn_field Conn.deleted
      (v := { s.conns c with lendings := (s.conns c).lendings + 1 }) rfl x
    intro x
    -- from the call to its user
    show placesIn s.coons (s.lent ++ [c]) R x ≤ placesIn s.coons s.lent (.returning c :: R) x
    rw [placesIn_lend, placesIn_cons]
    exact le_rfl
  | releasing c =>
    simp only [advance]
    split
    · exact h.mono (fun _ => le_rfl) le_rfl fun _ _ => rfl
    · exact h.mono (fun _ => le_rfl) le_rfl fun _ _ => rfl
  | dropping c =>
    refine h.delete rfl rfl ?_
    intro x
    show placesIn s.coons s.lent (.uncounting c :: R) x + _ ≤
      placesIn s.coons s.lent (.dropping c :: R) x
    rw [placesIn_cons, placesIn_cons]
    exact le_rfl
  | uncounting c => exact h.mono (fun _ => le_rfl) le_rfl fun _ _ => rfl
  | pushing c =>
    refine h.mono ?_ le_rfl fun _ _ => rfl
    intro x
    -- from the call back to the list
    show placesIn (s.coons ++ [c]) s.lent R x ≤ placesIn s.coons s.lent (.pushing c :: R) x
    rw [placesIn_push, placesIn_cons]
    exact le_rfl

/-- The loop takes the connections from the front of the list. -/
theorem scan_eq (s : HttpConnectionPool) (now : Nat) (cs : List Nat) :
    cs = (s.scan now cs).1 ++ (s.scan now cs).2.1.toList ++ (s.scan now cs).2.2 := by
  induction cs with
  | nil => rfl
  | cons c cs ih =>
    simp only [scan]
    split
    · exact congrArg (c :: ·) ih
    · rfl

theorem pick_perm {k : Nat} (h : s.calls[k]? = some call) :
    s.calls.Perm (call :: s.calls.eraseIdx k) := by
  obtain ⟨hk, rfl⟩ := List.getElem?_eq_some_iff.mp h
  exact (List.getElem_cons_eraseIdx_perm hk).symm

/-- What a step of the pool does, apart from the steps of a call. -/
theorem step_next {s' : HttpConnectionPool} {k now : Nat} {ok : Bool}
    (h : step s (.next k ok now) = some s') :
    ∃ call R, s.calls.Perm (call :: R) ∧
      s' = { (s.advance ok now call).1 with calls := (s.advance ok now call).2.toList ++ R } := by
  simp only [step] at h
  split at h
  · next call hcall =>
    cases h
    exact ⟨call, _, pick_perm hcall, rfl⟩
  · cases h

theorem step_placed {s' : HttpConnectionPool} {a : Act} (h : Placed s)
    (hstep : step s a = some s') : Placed s' := by
  cases a with
  | getConnection now =>
    cases hstep
    refine h.mono ?_ le_rfl fun _ _ => rfl
    intro x
    -- what the loop takes off the list is in the hands of the call
    have hscan := congrArg (List.count x) (s.scan_eq now s.coons)
    rw [List.count_append] at hscan
    show placesIn (s.scan now s.coons).2.2 s.lent (.deleting [] _ _ :: s.calls) x ≤
      placesIn s.coons s.lent s.calls x
    rw [placesIn_cons, placesIn, placesIn]
    show _ + ((s.scan now s.coons).1 ++ (s.scan now s.coons).2.1.toList).count x ≤ _
    omega
  | release c =>
    simp only [step] at hstep
    split at hstep
    · next hmem =>
      cases hstep
      refine h.mono ?_ le_rfl fun x _ => setConn_field Conn.deleted
        (v := { s.conns c with request := (s.conns c).request + 1 }) rfl x
      intro x
      -- the deleter of the pointer takes the connection from the user
      have hlent := (List.perm_cons_erase hmem).count_eq x
      rw [← List.singleton_append, List.count_append] at hlent
      show placesIn s.coons (s.lent.erase c) (.releasing c :: s.calls) x ≤
        placesIn s.coons s.lent s.calls x
      rw [placesIn_cons, placesIn, placesIn, hlent]
      show _ + [c].count x ≤ _
      omega
    · cases hstep
  | next k ok now =>
    obtain ⟨call, R, hperm, rfl⟩ := step_next hstep
    exact advance_placed (h.perm hperm) ok now
  | disconnect c =>
    cases hstep
    exact h.mono (fun _ => le_rfl) le_rfl fun x _ => setConn_field Conn.deleted
      (v := { s.conns c with isConnected := false }) rfl x
  | use c =>
    simp only [step] at hstep
    split at hstep
    · cases hstep
      exact h
    · cases hstep

/-! ## The counter -/

/-- The connections that `m_total` counts. -/
def countedIn (coons lent : List Nat) (calls : List Call) : Nat :=
  coons.length + lent.length + (calls.flatMap Call.counted).length

def Counted (s : HttpConnectionPool) : Prop :=
  s.total = UInt32.ofNat (countedIn s.coons s.lent s.calls)

theorem countedIn_cons (coons lent : List Nat) (call : Call) (R : List Call) :
    countedIn coons lent (call :: R) = countedIn coons lent R + call.counted.length := by
  simp only [countedIn, List.flatMap_cons, List.length_append]
  omega

theorem Counted.perm {l : List Call} (h : Counted s) (hperm : s.calls.Perm l) :
    Counted { s with calls := l } := by
  show s.total = UInt32.ofNat (countedIn s.coons s.lent l)
  rw [h, countedIn, countedIn, (hperm.flatMap_right Call.counted).length_eq]

theorem Counted.of_eq {s' : HttpConnectionPool} (h : Counted s) (htotal : s'.total = s.total)
    (hcounted : countedIn s'.coons s'.lent s'.calls = countedIn s.coons s.lent s.calls) :
    Counted s' := by
  rw [Counted, htotal, hcounted]
  exact h

theorem ofNat_sub (a b : Nat) : UInt32.ofNat (a + b) - UInt32.ofNat b = UInt32.ofNat a := by
  rw [UInt32.ofNat_add, UInt32.add_sub_cancel]

theorem advance_counted (h : Counted { s with calls := call :: R }) (ok : Bool) (now : Nat) :
    Counted { (s.advance ok now call).1 with
      calls := (s.advance ok now call).2.toList ++ R } := by
  have htotal : s.total = UInt32.ofNat (countedIn s.coons s.lent R + call.counted.length) := by
    rw [← countedIn_cons]
    exact h
  cases call with
  | deleting gone rest ptr =>
    cases rest with
    | cons c rest =>
      refine h.of_eq rfl ?_
      show countedIn s.coons s.lent (.deleting (gone ++ [c]) rest ptr :: R) =
        countedIn s.coons s.lent (.deleting gone (c :: rest) ptr :: R)
      rw [countedIn_cons, countedIn_cons]
      simp [Call.counted]
    | nil =>
      -- `m_total -= invalid_coons.size ()`, for the connections that this call has deleted
      show s.total - UInt32.ofNat gone.length = UInt32.ofNat (countedIn s.coons s.lent _)
      have hgone : countedIn s.coons s.lent R + (gone ++ [] ++ ptr.toList).length =
          countedIn s.coons s.lent R + ptr.toList.length + gone.length := by
        simp only [List.append_nil, List.length_append]
        omega
      rw [htotal]
      show UInt32.ofNat (_ + (gone ++ [] ++ ptr.toList).length) - _ = _
      rw [hgone, ofNat_sub]
      cases ptr with
      | some c =>
        show _ = UInt32.ofNat (countedIn s.coons s.lent (.returning c :: R))
        rw [countedIn_cons]
        rfl
      | none => rfl
  | connecting =>
    cases ok with
    | false => exact h.of_eq rfl rfl
    | true => exact h.of_eq rfl rfl
  | counting c =>
    -- `++m_total`: from here on the new connection counts
    show s.total + 1 = UInt32.ofNat (countedIn s.coons s.lent (.returning c :: R))
    rw [countedIn_cons, htotal]
    exact (UInt32.ofNat_add _ 1).symm
  | returning c =>
    refine h.of_eq rfl ?_
    show countedIn s.coons (s.lent ++ [c]) R = countedIn s.coons s.lent (.returning c :: R)
    rw [countedIn_cons, countedIn, countedIn, List.length_append]
    show _ = _ + 1
    simp only [List.length_singleton]
    omega
  | releasing c =>
    simp only [advance]
    split
    · exact h.of_eq rfl rfl
    · exact h.of_eq rfl rfl
  | dropping c => exact h.of_eq rfl rfl
  | uncounting c =>
    -- `--m_total`, after the connection was deleted
    show s.total - UInt32.ofNat 1 = UInt32.ofNat (countedIn s.coons s.lent R)
    rw [htotal]
    exact ofNat_sub _ 1
  | pushing c =>
    refine h.of_eq rfl ?_
    show countedIn (s.coons ++ [c]) s.lent R = countedIn s.coons s.lent (.pushing c :: R)
    rw [countedIn_cons, countedIn, countedIn, List.length_append]
    show _ = _ + 1
    simp only [List.length_singleton]
    omega

theorem step_counted {s' : HttpConnectionPool} {a : Act} (h : Counted s)
    (hstep : step s a = some s') : Counted s' := by
  cases a with
  | getConnection now =>
    cases hstep
    refine h.of_eq rfl ?_
    -- the loop does not touch `m_total`: the connections it takes still count
    have hscan := congrArg List.length (s.scan_eq now s.coons)
    rw [List.length_append] at hscan
    show countedIn (s.scan now s.coons).2.2 s.lent (.deleting [] _ _ :: s.calls) =
      countedIn s.coons s.lent s.calls
    rw [countedIn_cons, countedIn, countedIn]
    show _ + ((s.scan now s.coons).1 ++ (s.scan now s.coons).2.1.toList).length = _
    omega
  | release c =>
    simp only [step] at hstep
    split at hstep
    · next hmem =>
      cases hstep
      refine h.of_eq rfl ?_
      have hlent := (List.perm_cons_erase hmem).length_eq
      show countedIn s.coons (s.lent.erase c) (.releasing c :: s.calls) =
        countedIn s.coons s.lent s.calls
      rw [countedIn_cons, countedIn, countedIn, hlent, List.length_cons]
      show _ + 1 = _
      omega
    · cases hstep
  | next k ok now =>
    obtain ⟨call, R, hperm, rfl⟩ := step_next hstep
    exact advance_counted (h.perm hperm) ok now
  | disconnect c =>
    cases hstep
    exact h
  | use c =>
    simp only [step] at hstep
    split at hstep
    · cases hstep
      exact h
    · cases hstep

end

end HttpConnectionPool

end Luwu
