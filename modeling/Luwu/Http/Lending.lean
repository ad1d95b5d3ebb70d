import Luwu.Http.ConnectionPool

/-!
# Lending connections

A connection of the pool was returned as often as it was lent, and `ReleasePtr` keeps it only while
that is less than `m_maxRequest` times.  Together with the places of the connections this gives
what holds of the pool after every run.
-/

namespace Luwu.HttpConnectionPool

open Lib

/-! ## How often a connection is lent -/

/-- The connection may be lent again: it was returned as often as it was lent, and less than `m`
times. -/
def Conn.Spare (m : Nat) (v : Conn) : Prop := v.lendings = v.request ∧ v.request < m

def Call.Ready (conns : Nat → Conn) (m : Nat) : Call → Prop
  | .deleting _ _ (some c) | .pushing c => (conns c).Spare m
  | .counting c | .returning c => (conns c).Spare (max 1 m)
  | .releasing c => (conns c).lendings = (conns c).request
  | .deleting _ _ none | .connecting | .dropping _ | .uncounting _ => True

structure Used (s : HttpConnectionPool) : Prop where
  coons : ∀ c ∈ s.coons, (s.conns c).Spare s.maxRequest
  lent : ∀ c ∈ s.lent, (s.conns c).lendings = (s.conns c).request + 1
  calls : ∀ call ∈ s.calls, call.Ready s.conns s.maxRequest
  bound : ∀ c, (s.conns c).lendings ≤ max 1 s.maxRequest

/-- The two have been lent and returned equally often. -/
def Conn.SameUse (v v' : Conn) : Prop := v'.lendings = v.lendings ∧ v'.request = v.request

theorem Conn.SameUse.spare {v v' : Conn} (h : v.SameUse v') {m : Nat} (hs : v.Spare m) :
    v'.Spare m := by
  rw [Spare, h.1, h.2]
  exact hs

theorem Call.Ready.congr {conns conns' : Nat → Conn} {m : Nat} {call : Call}
    (h : call.Ready conns m) (hsame : ∀ c ∈ call.owned, (conns c).SameUse (conns' c)) :
    call.Ready conns' m := by
  cases call with
  | deleting gone rest ptr =>
    cases ptr with
    | none => trivial
    | some c => exact (hsame c (List.mem_append_right _ List.mem_cons_self)).spare h
  | connecting => trivial
  | counting c => exact (hsame c List.mem_cons_self).spare h
  | returning c => exact (hsame c List.mem_cons_self).spare h
  | releasing c =>
    obtain ⟨hlendings, hrequest⟩ := hsame c List.mem_cons_self
    rw [Ready, hlendings, hrequest]
    exact h
  | dropping c => trivial
  | uncounting c => trivial
  | pushing c => exact (hsame c List.mem_cons_self).spare h

section

variable {s s' : HttpConnectionPool} {R : List Call} {call : Call}

/-- A step after which each place has what it had, with the same use, or something that fits
there. -/
theorem Used.of (h : Used s) (hmax : s'.maxRequest = s.maxRequest)
    (hcoons : ∀ c ∈ s'.coons, c ∈ s.coons ∧ (s.conns c).SameUse (s'.conns c) ∨
      (s'.conns c).Spare s.maxRequest)
    (hlent : ∀ c ∈ s'.lent, c ∈ s.lent ∧ (s.conns c).SameUse (s'.conns c) ∨
      (s'.conns c).lendings = (s'.conns c).request + 1)
    (hcalls : ∀ call ∈ s'.calls,
      (call ∈ s.calls ∧ ∀ c ∈ call.owned, (s.conns c).SameUse (s'.conns c)) ∨
      call.Ready s'.conns s.maxRequest)
    (hbound : ∀ c, (s'.conns c).lendings ≤ (s.conns c).lendings ∨
      (s'.conns c).lendings ≤ max 1 s.maxRequest) : Used s' where
  coons c hc := by
    rw [hmax]
    rcases hcoons c hc with ⟨hold, hsame⟩ | hspare
    · exact hsame.spare (h.coons c hold)
    · exact hspare
  lent c hc := by
    rcases hlent c hc with ⟨hold, hlendings, hrequest⟩ | hnew
    · rw [hlendings, hrequest]
      exact h.lent c hold
    · exact hnew
  calls call hcall := by
    rw [hmax]
    rcases hcalls call hcall with ⟨hold, hsame⟩ | hready
    · exact (h.calls call hold).congr hsame
    · exact hready
  bound c := by
    rw [hmax]
    rcases hbound c with hle | hle
    · exact hle.trans (h.bound c)
    · exact hle

theorem Used.perm {l : List Call} (h : Used s) (hperm : s.calls.Perm l) :
    Used { s with calls := l } :=
  ⟨h.coons, h.lent, fun call hcall => h.calls call (hperm.symm.subset hcall), h.bound⟩

theorem sameUse_setConn {c : Nat} {v : Conn} (h : (s.conns c).SameUse v) (x : Nat) :
    (s.conns x).SameUse ((s.setConn c v).conns x) := by
  by_cases hx : x = c
  · rw [hx, setConn_self]
    exact h
  · rw [setConn_of_ne hx]
    exact ⟨rfl, rfl⟩

theorem sameUse_of_ne {c x : Nat} (h : x ≠ c) (v : Conn) :
    (s.conns x).SameUse ((s.setConn c v).conns x) := by
  rw [setConn_of_ne h]
  exact ⟨rfl, rfl⟩

theorem placesIn_eq_zero {coons lent : List Nat} {calls : List Call} {c : Nat}
    (h : placesIn coons lent calls c = 0) :
    c ∉ coons ∧ c ∉ lent ∧ ∀ call ∈ calls, c ∉ call.owned := by
  rw [placesIn] at h
  refine ⟨List.count_eq_zero.mp (by omega), List.count_eq_zero.mp (by omega), ?_⟩
  intro call hcall hmem
  have hnot : c ∉ calls.flatMap Call.owned := List.count_eq_zero.mp (by omega)
  exact hnot (List.mem_flatMap.mpr ⟨call, hcall, hmem⟩)

/-- What a call has is nowhere else. -/
theorem Placed.apart (h : Placed { s with calls := call :: R }) {c : Nat} (hc : c ∈ call.owned) :
    c ∉ s.coons ∧ c ∉ s.lent ∧ ∀ call' ∈ R, c ∉ call'.owned := by
  have hone : placesIn s.coons s.lent (call :: R) c ≤ 1 := h.once c
  have hpos := List.count_pos_iff.mpr hc
  rw [placesIn_cons] at hone
  exact placesIn_eq_zero (by omega)

/-- What is lent is nowhere else. -/
theorem Placed.apart_lent (h : Placed s) {c : Nat} (hc : c ∈ s.lent) :
    c ∉ s.coons ∧ c ∉ s.lent.erase c ∧ ∀ call ∈ s.calls, c ∉ call.owned := by
  have hone : placesIn s.coons s.lent s.calls c ≤ 1 := h.once c
  have hlent := (List.perm_cons_erase hc).count_eq c
  rw [List.count_cons_self] at hlent
  rw [placesIn, hlent] at hone
  apply placesIn_eq_zero
  rw [placesIn]
  omega

theorem Placed.fresh (h : Placed s) :
    s.made ∉ s.coons ∧ s.made ∉ s.lent ∧ ∀ call ∈ s.calls, s.made ∉ call.owned := by
  apply placesIn_eq_zero
  by_contra hne
  exact absurd (h.valid s.made (Nat.pos_of_ne_zero hne)).1 (Nat.lt_irrefl _)

/-- The pool is as before up to connections that were lent and returned as often, and the call has
gone on to `new`. -/
theorem Used.goes (h : Used { s with calls := call :: R }) (s' : HttpConnectionPool)
    (hmax : s'.maxRequest = s.maxRequest) (hcoons : s'.coons = s.coons) (hlent : s'.lent = s.lent)
    (hsame : ∀ c, (s.conns c).SameUse (s'.conns c)) {new : Call}
    (hnew : new.Ready s'.conns s.maxRequest) : Used { s' with calls := new :: R } := by
  refine h.of hmax ?_ ?_ ?_ fun c => .inl (hsame c).1.le
  · intro c hc
    exact .inl ⟨hcoons ▸ hc, hsame c⟩
  · intro c hc
    exact .inl ⟨hlent ▸ hc, hsame c⟩
  · intro call' hcall'
    rcases List.mem_cons.mp hcall' with heq | hrest
    · rw [heq]
      exact .inr hnew
    · exact .inl ⟨List.mem_cons_of_mem _ hrest, fun c _ => hsame c⟩

theorem advance_used (h : Used { s with calls := call :: R })
    (hplaced : Placed { s with calls := call :: R }) (ok : Bool) (now : Nat) :
    Used { (s.advance ok now call).1 with
      calls := (s.advance ok now call).2.toList ++ R } := by
  have hready : call.Ready s.conns s.maxRequest := h.calls call List.mem_cons_self
  have hrest (call' : Call) (hcall' : call' ∈ R) : call'.Ready s.conns s.maxRequest :=
    h.calls call' (List.mem_cons_of_mem _ hcall')
  cases call with
  | deleting gone rest ptr =>
    cases rest with
    | cons c rest =>
      have hsame := sameUse_setConn (s := s) (c := c) (v := { s.conns c with deleted := true })
        ⟨rfl, rfl⟩
      refine h.goes (s.delete c) rfl rfl rfl hsame ?_
      cases ptr with
      | none => trivial
      | some c' => exact (hsame c').spare hready
    | nil =>
      cases ptr with
      | none =>
        exact h.goes { s with total := s.total - UInt32.ofNat gone.length } rfl rfl rfl
          (fun _ => ⟨rfl, rfl⟩) trivial
      | some c =>
        refine h.goes { s with total := s.total - UInt32.ofNat gone.length } rfl rfl rfl
          (fun _ => ⟨rfl, rfl⟩) ?_
        exact ⟨hready.1, Nat.lt_of_lt_of_le hready.2 (Nat.le_max_right _ _)⟩
  | connecting =>
    cases ok with
    | false => exact ⟨h.coons, h.lent, hrest, h.bound⟩
    | true =>
      obtain ⟨hcoons, hlent, hcalls⟩ := hplaced.fresh
      refine h.of rfl ?_ ?_ ?_ ?_
      · intro c hc
        exact .inl ⟨hc, sameUse_of_ne (ne_of_mem_of_not_mem hc hcoons) _⟩
      · intro c hc
        exact .inl ⟨hc, sameUse_of_ne (ne_of_mem_of_not_mem hc hlent) _⟩
      · intro call' hcall'
        rcases List.mem_cons.mp hcall' with heq | hmem
        · subst heq
          right
          show ((s.setConn s.made {}).conns s.made).Spare _
          rw [setConn_self]
          exact ⟨rfl, Nat.lt_of_lt_of_le Nat.one_pos (Nat.le_max_left _ _)⟩
        · left
          have hmem' := List.mem_cons_of_mem Call.connecting hmem
          exact ⟨hmem', fun c hc =>
            sameUse_of_ne (ne_of_mem_of_not_mem hc (hcalls call' hmem')) _⟩
      · intro c
        right
        by_cases hc : c = s.made
        · show ((s.setConn s.made {}).conns c).lendings ≤ _
          rw [hc, setConn_self]
          exact Nat.zero_le _
        · show ((s.setConn s.made {}).conns c).lendings ≤ _
          rw [setConn_of_ne hc]
          exact h.bound c
  | counting c =>
    exact h.goes { s with total := s.total + 1 } rfl rfl rfl (fun _ => ⟨rfl, rfl⟩) hready
  | returning c =>
    obtain ⟨hcoons, hlent, hcalls⟩ := hplaced.apart List.mem_cons_self
    refine h.of rfl ?_ ?_ ?_ ?_
    · intro x hx
      exact .inl ⟨hx, sameUse_of_ne (ne_of_mem_of_not_mem hx hcoons) _⟩
    · intro x hx
      rcases List.mem_append.mp hx with hold | hnew
      · exact .inl ⟨hold, sameUse_of_ne (ne_of_mem_of_not_mem hold hlent) _⟩
      · right
        rw [List.mem_singleton.mp hnew]
        show ((s.setConn c _).conns c).lendings = ((s.setConn c _).conns c).request + 1
        rw [setConn_self]
        exact congrArg (· + 1) hready.1
    · intro call' hmem
      left
      exact ⟨List.mem_cons_of_mem _ hmem, fun x hx =>
        sameUse_of_ne (ne_of_mem_of_not_mem hx (hcalls call' hmem)) _⟩
    · intro x
      right
      by_cases hx : x = c
      · show ((s.setConn c _).conns x).lendings ≤ _
        rw [hx, setConn_self]
        show (s.conns c).lendings + 1 ≤ _
        rw [hready.1]
        exact hready.2
      · show ((s.setConn c _).conns x).lendings ≤ _
        rw [setConn_of_ne hx]
        exact h.bound x
  | releasing c =>
    simp only [advance]
    split
    · exact h.goes s rfl rfl rfl (fun _ => ⟨rfl, rfl⟩) trivial
    · next hvalid =>
      refine h.goes s rfl rfl rfl (fun _ => ⟨rfl, rfl⟩) ⟨hready, ?_⟩
      -- it was not returned `m_maxRequest` times
      simp only [Bool.or_eq_true, decide_eq_true_eq, not_or] at hvalid
      exact not_le.mp hvalid.2
  | dropping c =>
    exact h.goes (s.delete c) rfl rfl rfl
      (sameUse_setConn (v := { s.conns c with deleted := true }) ⟨rfl, rfl⟩) trivial
  | uncounting c => exact ⟨h.coons, h.lent, hrest, h.bound⟩
  | pushing c =>
    refine ⟨?_, h.lent, hrest, h.bound⟩
    intro x hx
    rcases List.mem_append.mp hx with hold | hnew
    · exact h.coons x hold
    · rw [List.mem_singleton.mp hnew]
      exact hready

theorem step_used {a : Act} (h : Used s) (hplaced : Placed s) (hstep : step s a = some s') :
    Used s' := by
  cases a with
  | getConnection now =>
    cases hstep
    have hscan := s.scan_eq now s.coons
    refine h.of rfl ?_ ?_ ?_ fun _ => .inl le_rfl
    · intro c hc
      left
      refine ⟨?_, rfl, rfl⟩
      rw [hscan]
      exact List.mem_append_right _ hc
    · intro c hc
      exact .inl ⟨hc, rfl, rfl⟩
    · intro call hcall
      rcases List.mem_cons.mp hcall with heq | hold
      · right
        rw [heq]
        -- the connection that the loop has found
        cases hptr : (s.scan now s.coons).2.1 with
        | none => trivial
        | some c =>
          apply h.coons c
          rw [hscan, hptr]
          exact List.mem_append_left _ (List.mem_append_right _ List.mem_cons_self)
      · exact .inl ⟨hold, fun _ _ => ⟨rfl, rfl⟩⟩
  | release c =>
    simp only [step] at hstep
    split at hstep
    · next hmem =>
      cases hstep
      obtain ⟨hcoons, hlent, hcalls⟩ := hplaced.apart_lent hmem
      refine h.of rfl ?_ ?_ ?_ ?_
      · intro x hx
        exact .inl ⟨hx, sameUse_of_ne (ne_of_mem_of_not_mem hx hcoons) _⟩
      · intro x hx
        exact .inl ⟨List.mem_of_mem_erase hx, sameUse_of_ne (ne_of_mem_of_not_mem hx hlent) _⟩
      · intro call hcall
        rcases List.mem_cons.mp hcall with heq | hold
        · right
          rw [heq]
          show ((s.setConn c _).conns c).lendings = ((s.setConn c _).conns c).request
          rw [setConn_self]
          exact h.lent c hmem
        · exact .inl ⟨hold, fun x hx =>
            sameUse_of_ne (ne_of_mem_of_not_mem hx (hcalls call hold)) _⟩
      · intro x
        left
        exact (setConn_field Conn.lendings
          (v := { s.conns c with request := (s.conns c).request + 1 }) rfl x).le
    · cases hstep
  | next k ok now =>
    obtain ⟨call, R, hperm, rfl⟩ := step_next hstep
    exact advance_used (h.perm hperm) (hplaced.perm hperm) ok now
  | disconnect c =>
    cases hstep
    have hsame := sameUse_setConn (s := s) (c := c) (v := { s.conns c with isConnected := false })
      ⟨rfl, rfl⟩
    exact h.of rfl (fun x hx => .inl ⟨hx, hsame x⟩) (fun x hx => .inl ⟨hx, hsame x⟩)
      (fun call hcall => .inl ⟨hcall, fun x _ => hsame x⟩) fun x => .inl (hsame x).1.le
  | use c =>
    simp only [step] at hstep
    split at hstep
    · cases hstep
      exact h
    · cases hstep

/-! ## Runs -/

/-- A pool before its first call. -/
def new (maxAliveTime maxRequest : Nat) : HttpConnectionPool := { maxAliveTime, maxRequest }

theorem step_maxRequest {a : Act} (hstep : step s a = some s') : s'.maxRequest = s.maxRequest := by
  cases a with
  | getConnection now => cases hstep; rfl
  | release c =>
    simp only [step] at hstep
    split at hstep
    · cases hstep; rfl
    · cases hstep
  | next k ok now =>
    obtain ⟨call, R, -, rfl⟩ := step_next hstep
    show (s.advance ok now call).1.maxRequest = s.maxRequest
    cases call with
    | deleting gone rest ptr => cases rest <;> rfl
    | connecting => cases ok <;> rfl
    | releasing c =>
      simp only [advance]
      split <;> rfl
    | counting | returning | dropping | uncounting | pushing => rfl
  | disconnect c => cases hstep; rfl
  | use c =>
    simp only [step] at hstep
    split at hstep
    · cases hstep; rfl
    · cases hstep

theorem places_of_touched {a : Act} (hstep : step s a = some s') {c : Nat} (hc : c ∈ s.touched a) :
    0 < s.places c := by
  have hcall {call : Call} (hmem : call ∈ s.calls) (hc : c ∈ call.owned) : 0 < s.places c := by
    have := List.count_pos_iff.mpr (List.mem_flatMap.mpr ⟨call, hmem, hc⟩)
    rw [places, placesIn]
    omega
  have hlent (hmem : c ∈ s.lent) : 0 < s.places c := by
    have := List.count_pos_iff.mpr hmem
    rw [places, placesIn]
    omega
  cases a with
  | getConnection now =>
    -- the loop looks at connections of the list
    have hmem : c ∈ s.coons := by
      rw [s.scan_eq now s.coons]
      exact List.mem_append_left _ hc
    have := List.count_pos_iff.mpr hmem
    rw [places, placesIn]
    omega
  | release c' =>
    cases List.mem_singleton.mp hc
    simp only [step] at hstep
    split at hstep
    · next hmem => exact hlent hmem
    · cases hstep
  | next k ok now =>
    -- a call accesses the connection it holds
    simp only [touched] at hc
    split at hc
    · next hk =>
      cases List.mem_singleton.mp hc
      exact hcall (List.mem_of_getElem? hk) List.mem_cons_self
    · next hk =>
      cases List.mem_singleton.mp hc
      exact hcall (List.mem_of_getElem? hk) List.mem_cons_self
    · next hk =>
      cases List.mem_singleton.mp hc
      exact hcall (List.mem_of_getElem? hk) List.mem_cons_self
    · cases hc
  | disconnect c' => cases hc
  | use c' =>
    cases List.mem_singleton.mp hc
    simp only [step] at hstep
    split at hstep
    · next hmem => exact hlent hmem
    · cases hstep

end

/-- **No connection is lost, shared or used after its deletion**, in any interleaving of the steps
of any number of calls.  It is lent at most `m_maxRequest` times (once when that is 0), and
`m_total` counts the connections when no call is in progress. -/
theorem connections_conserved (maxAliveTime maxRequest : Nat) (acts : List Act)
    (s : HttpConnectionPool) (h : runFrom step (new maxAliveTime maxRequest) acts = some s) :
    (∀ c ∈ s.coons, c ∉ s.lent) ∧ s.coons.Nodup ∧ s.lent.Nodup ∧
    (∀ a s', step s a = some s' → ∀ c ∈ s.touched a, (s.conns c).deleted = false) ∧
    (∀ c ∈ s.coons ++ s.lent, (s.conns c).deleted = false) ∧
    (∀ c, (s.conns c).lendings ≤ max 1 maxRequest) ∧
    (s.calls = [] → s.total = UInt32.ofNat (s.coons.length + s.lent.length)) := by
  have hinit : Placed (new maxAliveTime maxRequest) ∧ Counted (new maxAliveTime maxRequest) ∧
      Used (new maxAliveTime maxRequest) ∧
      (new maxAliveTime maxRequest).maxRequest = maxRequest := by
    refine ⟨⟨fun _ => Nat.zero_le _, fun _ hc => ?_⟩, rfl,
      ⟨?_, ?_, ?_, fun _ => Nat.zero_le _⟩, rfl⟩
    · cases hc
    · intro c hc
      cases hc
    · intro c hc
      cases hc
    · intro c hc
      cases hc
  obtain ⟨hplaced, hcounted, hused, hmax⟩ := runFrom_invariant
    (P := fun s => Placed s ∧ Counted s ∧ Used s ∧ s.maxRequest = maxRequest)
    (fun s a s' hs hstep => ⟨step_placed hs.1 hstep, step_counted hs.2.1 hstep,
      step_used hs.2.2.1 hs.1 hstep, (step_maxRequest hstep).trans hs.2.2.2⟩) hinit h
  -- a connection is in one place only: the list, a user or a call
  have honce (c : Nat) : s.coons.count c + s.lent.count c ≤ 1 :=
    le_trans (Nat.le_add_right _ _) (hplaced.once c)
  refine ⟨?_, ?_, ?_, ?_, ?_, ?_, ?_⟩
  · intro c hc hlent
    -- in the list and lent at once would be two places
    have hpos := List.count_pos_iff.mpr hc
    have hpos' := List.count_pos_iff.mpr hlent
    have := honce c
    omega
  · exact List.nodup_iff_count.mpr fun c => le_trans (Nat.le_add_right _ _) (honce c)
  · exact List.nodup_iff_count.mpr fun c => le_trans (Nat.le_add_left _ _) (honce c)
  · intro a s' hstep c hc
    exact (hplaced.valid c (places_of_touched hstep hc)).2
  · intro c hc
    have hpos := List.count_pos_iff.mpr hc
    rw [List.count_append] at hpos
    refine (hplaced.valid c ?_).2
    rw [places, placesIn]
    omega
  · rw [← hmax]
    exact hused.bound
  · intro hcalls
    rw [hcounted, hcalls]
    rfl

/-- A connection is made, lent and returned to the pool, and lost when it is wanted again; in its
place another one is made. -/
def twoConnections : List Act :=
  [.getConnection 5000, .next 0 true 0, .next 0 true 0, .next 0 true 0, .next 0 true 0,
    .release 0, .next 0 true 5100, .next 0 true 0, .disconnect 0,
    .getConnection 5200, .next 0 true 0, .next 0 true 0, .next 0 true 0, .next 0 true 0,
    .next 0 true 0]

theorem connections_conserved_two :
    ∃ s, runFrom step (new 1000 2) twoConnections = some s ∧ s.coons = [] ∧ s.lent = [1] ∧
      s.calls = [] ∧ s.total = 1 ∧ (s.conns 0).deleted = true ∧ (s.conns 1).deleted = false :=
  ⟨_, rfl, rfl, rfl, rfl,
    (connections_conserved 1000 2 twoConnections _ rfl).2.2.2.2.2.2 rfl, rfl,
    (connections_conserved 1000 2 twoConnections _ rfl).2.2.2.2.1 1 (by decide)⟩

end Luwu.HttpConnectionPool
