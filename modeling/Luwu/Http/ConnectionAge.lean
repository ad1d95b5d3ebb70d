import Luwu.Http.Lending

/-!
# The age of connections

`getConnection` and `ReleasePtr` compare `m_createTime + m_maxAliveTime` with the time.
`m_createTime` is always 0, and both comparisons have the sign of one for connections that are still
young.  A run is recorded with the times at which its connections were established.

A call reads the time once, so a connection from the list is handed out at that time, and a new one
when it is established.
-/

namespace Luwu.HttpConnectionPool

open Lib

/-- The times at which the connections were established. -/
abbrev Born := Nat → Nat

/-- What an action adds to the times. -/
def Born.next (s : HttpConnectionPool) (a : Act) (born : Born) : Born :=
  match a with
  | .next k true now =>
    if s.calls[k]? = some .connecting then Function.update born s.made now else born
  | _ => born

/-- The pool with the times at which its connections were established. -/
def agedStep : HttpConnectionPool × Born → Act → Option (HttpConnectionPool × Born) :=
  recordStep step fun s _ a born => born.next s a

/-- The time of an action, if it reads or passes the clock. -/
def Act.time? : Act → Option Nat
  | .getConnection now => some now
  | .next _ _ now => some now
  | .release _ => none
  | .disconnect _ => none
  | .use _ => none

/-- The clock does not go back. -/
def Clocked (acts : List Act) : Prop := (acts.filterMap Act.time?).Pairwise (· ≤ ·)

section

variable (s : HttpConnectionPool) (born : Born)

/-- The connection was established less than `m_maxAliveTime` before `now`. -/
def Young (c now : Nat) : Prop := now < born c + s.maxAliveTime

/-- The connection is still connected, young, and was used less than `m_maxRequest` times. -/
def Reusable (c now : Nat) : Prop :=
  (s.conns c).isConnected = true ∧ Young s born c now ∧ (s.conns c).request < s.maxRequest

end

/-- What a step has to do: the connections that `getConnection` hands out are young, and no reusable
connection is deleted. -/
def Serves (sb : HttpConnectionPool × Born) : Act → Prop
  | .getConnection now =>
    (∀ c, (sb.1.scan now sb.1.coons).2.1 = some c → Young sb.1 sb.2 c now) ∧
    ∀ c ∈ (sb.1.scan now sb.1.coons).1, ¬ Reusable sb.1 sb.2 c now
  | .next k ok now =>
    match sb.1.calls[k]? with
    | some .connecting =>
      ok = true → Young sb.1 (sb.2.next sb.1 (.next k ok now)) sb.1.made now
    | some (.releasing c) =>
      Reusable sb.1 sb.2 c now → (sb.1.advance ok now (.releasing c)).2 = some (.pushing c)
    | _ => True
  | _ => True

/-- The first connection of the list that is still connected. -/
def firstConnected (s : HttpConnectionPool) : Option Nat :=
  s.coons.find? fun c => (s.conns c).isConnected

/-- Where the reversed comparisons agree with the age: the time is `m_maxAliveTime` or more, and
the first connected connection is young, or it is less and there is nothing to reuse. -/
def InSeason (sb : HttpConnectionPool × Born) : Act → Prop
  | .getConnection now =>
    if sb.1.maxAliveTime ≤ now then ∀ c, firstConnected sb.1 = some c → Young sb.1 sb.2 c now
    else ∀ c ∈ sb.1.coons, ¬ Reusable sb.1 sb.2 c now
  | .next k ok now =>
    match sb.1.calls[k]? with
    | some .connecting => ok = true → 0 < sb.1.maxAliveTime
    | some (.releasing c) => Reusable sb.1 sb.2 c now → sb.1.maxAliveTime < now
    | _ => True
  | _ => True

/-! ## Creation times -/

section

variable {s s' : HttpConnectionPool} {born : Born}

/-- `m_createTime` is what its initializer says. -/
def Unset (s : HttpConnectionPool) : Prop := ∀ c, (s.conns c).createTime = 0

theorem Unset.setConn (h : Unset s) {c : Nat} {v : Conn} (hv : v.createTime = 0) :
    Unset (s.setConn c v) := by
  intro x
  rw [setConn_field Conn.createTime (hv.trans (h c).symm)]
  exact h x

theorem advance_unset (h : Unset s) (ok : Bool) (now : Nat) (call : Call) :
    Unset (s.advance ok now call).1 := by
  cases call with
  | deleting gone rest ptr =>
    cases rest with
    | cons c rest => exact h.setConn (h c)
    | nil => exact h
  | connecting =>
    cases ok with
    | false => exact h
    | true => exact h.setConn (c := s.made) rfl
  | counting c => exact h
  | returning c => exact h.setConn (h c)
  | releasing c =>
    simp only [advance]
    split
    · exact h
    · exact h
  | dropping c => exact h.setConn (h c)
  | uncounting c => exact h
  | pushing c => exact h

theorem step_unset {a : Act} (h : Unset s) (hstep : step s a = some s') : Unset s' := by
  cases a with
  | getConnection now =>
    cases hstep
    exact h
  | release c =>
    simp only [step] at hstep
    split at hstep
    · cases hstep
      exact h.setConn (h c)
    · cases hstep
  | next k ok now =>
    obtain ⟨call, R, -, rfl⟩ := step_next hstep
    exact advance_unset h ok now call
  | disconnect c =>
    cases hstep
    exact h.setConn (h c)
  | use c =>
    simp only [step] at hstep
    split at hstep
    · cases hstep
      exact h
    · cases hstep

/-! ## What the two comparisons decide -/

/-- From `m_maxAliveTime` on, the loop of `getConnection` takes the first connected connection. -/
theorem scan_of_le (h : Unset s) {now : Nat} (hnow : s.maxAliveTime ≤ now) (cs : List Nat) :
    (s.scan now cs).2.1 = cs.find? (fun c => (s.conns c).isConnected) ∧
      ∀ c ∈ (s.scan now cs).1, (s.conns c).isConnected = false := by
  induction cs with
  | nil => exact ⟨rfl, fun c hc => absurd hc List.not_mem_nil⟩
  | cons c cs ih =>
    -- the creation time is 0
    have htime : decide ((s.conns c).createTime + s.maxAliveTime > now) = false := by
      rw [h c]
      exact decide_eq_false (by omega)
    rw [scan, htime, Bool.or_false, List.find?_cons]
    cases hc : (s.conns c).isConnected with
    | true => exact ⟨rfl, fun x hx => absurd hx List.not_mem_nil⟩
    | false =>
      refine ⟨ih.1, ?_⟩
      intro x hx
      rcases List.mem_cons.mp hx with rfl | hx'
      · exact hc
      · exact ih.2 x hx'

theorem scan_of_lt (h : Unset s) {now : Nat} (hnow : now < s.maxAliveTime) (cs : List Nat) :
    s.scan now cs = (cs, none, []) := by
  induction cs with
  | nil => rfl
  | cons c cs ih =>
    have htime : decide ((s.conns c).createTime + s.maxAliveTime > now) = true := by
      rw [h c]
      exact decide_eq_true (by omega)
    rw [scan, htime, Bool.or_true, if_pos rfl, ih]

/-- `ReleasePtr` keeps a reusable connection exactly after `m_maxAliveTime`. -/
theorem advance_releasing (h : Unset s) {c now : Nat} (hc : Reusable s born c now) (ok : Bool) :
    (s.advance ok now (.releasing c)).2 = some (.pushing c) ↔ s.maxAliveTime < now := by
  obtain ⟨hconnected, -, hrequest⟩ := hc
  have hspare : decide ((s.conns c).request ≥ s.maxRequest) = false :=
    decide_eq_false (not_le.mpr hrequest)
  simp only [advance]
  rw [hconnected, hspare, h c, Nat.zero_add, Bool.not_true, Bool.false_or, Bool.or_false]
  by_cases hnow : s.maxAliveTime ≥ now
  · rw [if_pos (decide_eq_true hnow)]
    exact iff_of_false (fun hc => by cases hc) (by omega)
  · rw [if_neg (by rw [decide_eq_true_eq]; exact hnow)]
    exact iff_of_true rfl (by omega)

theorem serves_iff (h : Unset s) (a : Act) : Serves (s, born) a ↔ InSeason (s, born) a := by
  cases a with
  | getConnection now =>
    unfold Serves InSeason
    dsimp only
    split
    · rename_i hnow
      obtain ⟨hptr, hinvalid⟩ := scan_of_le h hnow s.coons
      rw [hptr]
      refine and_iff_left ?_
      -- what is deleted is not connected
      intro c hc hreusable
      have hconnected := hreusable.1
      rw [hinvalid c hc] at hconnected
      cases hconnected
    · rename_i hnow
      rw [scan_of_lt h (not_le.mp hnow)]
      refine and_iff_right ?_
      intro c hc
      cases hc
  | next k ok now =>
    unfold Serves InSeason
    dsimp only
    split
    · rename_i hk
      apply imp_congr_right
      intro hok
      subst hok
      -- the new connection is established at this very time
      have hborn : born.next s (.next k true now) s.made = now := by
        show (if s.calls[k]? = some .connecting then _ else _ : Born) s.made = now
        rw [if_pos hk]
        exact Function.update_self _ _ _
      unfold Young
      rw [hborn]
      omega
    · exact imp_congr_right fun hc => advance_releasing h hc ok
    · exact Iff.rfl
  | release c => exact Iff.rfl
  | disconnect c => exact Iff.rfl
  | use c => exact Iff.rfl

end

/-! ## Runs -/

/-- A pool before its first call, with nothing recorded. -/
def newAged (maxAliveTime maxRequest : Nat) : HttpConnectionPool × Born :=
  (new maxAliveTime maxRequest, fun _ => 0)

theorem agedStep_unset {sb sb' : HttpConnectionPool × Born} {a : Act} (h : Unset sb.1)
    (hstep : agedStep sb a = some sb') : Unset sb'.1 := by
  obtain ⟨t, ht, rfl⟩ := Option.map_eq_some_iff.mp hstep
  exact step_unset h ht

/-- **Ages in a pool.**  In every run the connections handed out are young and no reusable one is
deleted, exactly when at each step the reversed comparisons happen to agree with the age. -/
theorem serves_iff_inSeason (maxAliveTime maxRequest : Nat) (acts : List Act) :
    AllSteps agedStep Serves (newAged maxAliveTime maxRequest) acts ↔
      AllSteps agedStep InSeason (newAged maxAliveTime maxRequest) acts := by
  have hnew : Unset (newAged maxAliveTime maxRequest).1 := fun _ => rfl
  constructor
  · apply AllSteps.imp (fun _ _ _ h _ hstep => agedStep_unset h hstep) _ acts _ hnew
    exact fun sb a h hserves => (serves_iff h a).mp hserves
  · apply AllSteps.imp (fun _ _ _ h _ hstep => agedStep_unset h hstep) _ acts _ hnew
    exact fun sb a h hseason => (serves_iff h a).mpr hseason

/-- A connection is made at 5000 and returned to the pool at 5100; at 100000 it is handed out again,
though connections are to live 1000 milliseconds. -/
theorem serves_not_old :
    ¬ ∀ (maxAliveTime maxRequest : Nat) (acts : List Act), Clocked acts →
      (runFrom step (new maxAliveTime maxRequest) acts).isSome →
        AllSteps agedStep Serves (newAged maxAliveTime maxRequest) acts := by
  intro h
  let made : List Act := [.getConnection 5000, .next 0 true 5000, .next 0 true 5000,
    .next 0 true 5000, .next 0 true 5000, .release 0, .next 0 true 5100, .next 0 true 5100]
  have hall := h 1000 2 (made ++ [.getConnection 100000]) (by unfold Clocked; decide) rfl
  have hlast := (((((((hall.2 _ rfl).2 _ rfl).2 _ rfl).2 _ rfl).2 _ rfl).2 _ rfl).2 _ rfl).2 _ rfl
  have hyoung : (100000 : Nat) < 5000 + 1000 := hlast.1.1 0 rfl
  omega

end Luwu.HttpConnectionPool
