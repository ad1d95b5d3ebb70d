import Luwu.HttpParser.UrlLoop

/-!
# The loop of `http_parse_host`

It reads the server part of a URL: user information, a name or a bracketed address, a port.
-/

namespace Luwu.HttpParser

open Lib

/-! ## Steps -/

/-- The steps of `http_parse_host_char` that go on. -/
inductive HostStep : HostState → UInt8 → HostState → Prop
  | userinfo {s : HostState} {ch : UInt8} (hs : s = .userinfoStart ∨ s = .userinfo)
      (h : isUserinfoChar ch = true) : HostStep s ch .userinfo
  | userinfoEnd {s : HostState} (hs : s = .userinfoStart ∨ s = .userinfo) :
      HostStep s '@'.toUInt8 .hostStart
  | bracket : HostStep .hostStart '['.toUInt8 .hostV6Start
  | host {s : HostState} {ch : UInt8} (hs : s = .hostStart ∨ s = .host)
      (h : isHostChar ch = true) : HostStep s ch .host
  | v6 {s : HostState} {ch : UInt8} (hs : s = .hostV6Start ∨ s = .hostV6)
      (h : isHex ch = true ∨ ch = ':'.toUInt8 ∨ ch = '.'.toUInt8) : HostStep s ch .hostV6
  | zoneStart : HostStep .hostV6 '%'.toUInt8 .hostV6ZoneStart
  | zone {s : HostState} {ch : UInt8} (hs : s = .hostV6ZoneStart ∨ s = .hostV6Zone)
      (h : parseHostChar.zoneChar ch = true) : HostStep s ch .hostV6Zone
  | close {s : HostState} {ch : UInt8} (hs : s = .hostV6 ∨ s = .hostV6Zone) :
      HostStep s ch .hostV6End
  | colon {s : HostState} (hs : s = .host ∨ s = .hostV6End) :
      HostStep s ':'.toUInt8 .hostPortStart
  | port {s : HostState} {ch : UInt8} (hs : s = .hostPortStart ∨ s = .hostPort)
      (h : isNum ch = true) : HostStep s ch .hostPort

/-- **What `http_parse_host_char` can do.** -/
theorem parseHostChar_step (s : HostState) (ch : UInt8) :
    parseHostChar s ch = .dead ∨ HostStep s ch (parseHostChar s ch) := by
  have huserinfo (hs : s = .userinfoStart ∨ s = .userinfo) :
      let s' : HostState := if ch = '@'.toUInt8 then .hostStart
        else if isUserinfoChar ch then .userinfo else .dead
      s' = .dead ∨ HostStep s ch s' := by
    dsimp only
    split
    · next h => exact .inr (h ▸ .userinfoEnd hs)
    · split
      · next h => exact .inr (.userinfo hs h)
      · exact .inl rfl
  have hport (hs : s = .hostPortStart ∨ s = .hostPort) :
      let s' : HostState := if isNum ch then .hostPort else .dead
      s' = .dead ∨ HostStep s ch s' := by
    dsimp only
    split
    · next h => exact .inr (.port hs h)
    · exact .inl rfl
  cases s with
  | dead => exact .inl rfl
  | userinfoStart => exact huserinfo (.inl rfl)
  | userinfo => exact huserinfo (.inr rfl)
  | hostPortStart => exact hport (.inl rfl)
  | hostPort => exact hport (.inr rfl)
  | hostStart =>
    unfold parseHostChar
    dsimp only
    split
    · next h => exact .inr (h ▸ .bracket)
    · split
      · next h => exact .inr (.host (.inl rfl) h)
      · exact .inl rfl
  | host =>
    unfold parseHostChar
    dsimp only
    split
    · next h => exact .inr (.host (.inr rfl) h)
    · split
      · next h => exact .inr (h ▸ .colon (.inl rfl))
      · exact .inl rfl
  | hostV6End =>
    unfold parseHostChar
    dsimp only
    split
    · next h => exact .inr (h ▸ .colon (.inr rfl))
    · exact .inl rfl
  | hostV6Start =>
    unfold parseHostChar
    dsimp only
    split
    · next h => exact .inr (.v6 (.inl rfl) h)
    · exact .inl rfl
  -- the end, one more character, or the percent sign in front of a zone
  | hostV6 =>
    unfold parseHostChar
    dsimp only
    split_ifs with hclose hhex hpercent
    · exact .inr (.close (.inl rfl))
    · exact .inr (.v6 (.inr rfl) hhex)
    · exact .inr (hpercent ▸ .zoneStart)
    · exact .inl rfl
  | hostV6ZoneStart =>
    unfold parseHostChar
    dsimp only
    split
    · next h => exact .inr (.zone (.inl rfl) h)
    · exact .inl rfl
  | hostV6Zone =>
    unfold parseHostChar
    dsimp only
    split_ifs with hclose hzone
    · exact .inr (.close (.inr rfl))
    · exact .inr (.zone (.inr rfl) hzone)
    · exact .inl rfl

/-- The field that a state of the host automaton belongs to. -/
def hostLabel : HostState → Option UrlField
  | .userinfo => some .userinfo
  | .host | .hostV6 | .hostV6ZoneStart | .hostV6Zone => some .host
  | .hostPort => some .port
  | _ => none

def hostPhase : HostState → Nat
  | .userinfoStart => 0
  | .userinfo => 1
  | .hostStart => 2
  | .hostV6Start => 3
  | .host | .hostV6 | .hostV6ZoneStart | .hostV6Zone => 4
  | .hostV6End => 5
  | .hostPortStart => 6
  | .hostPort => 7
  | .dead => 8

def hostFieldPhase : UrlField → Nat
  | .userinfo => 1
  | .host => 4
  | .port => 7
  | _ => 9

theorem hostPhase_le (s : HostState) (ch : UInt8) :
    hostPhase s ≤ hostPhase (parseHostChar s ch) := by
  rcases parseHostChar_step s ch with hdead | hstep
  · rw [hdead]
    cases s <;> decide
  · generalize parseHostChar s ch = s' at hstep
    cases hstep with
    | userinfo hs | userinfoEnd hs | host hs | v6 hs | zone hs | close hs | colon hs | port hs =>
      rcases hs with rfl | rfl <;> decide
    | _ => decide

theorem hostLabel_iff (f : UrlField) (s : HostState) :
    hostLabel s = some f ↔ hostPhase s = hostFieldPhase f := by
  cases f <;> cases s <;> decide

/-- The fields that the host automaton notes. -/
def UrlField.inHost (f : UrlField) : Prop := f = .host ∨ f = .userinfo ∨ f = .port

/-- What is written when a field starts; the length of the host has been set to 0 before. -/
def startField (u : Url) (f : UrlField) (i : Nat) : Url :=
  if f = .host then u.setOff f i else ((u.setOff f i).setLen f 0).mark f

/-- A step leads out of the fields, goes on with one, or starts one. -/
theorem hostField_cases {s s' : HostState} {ch : UInt8} (h : HostStep s ch s') (u : Url) (i : Nat) :
    (hostLabel s' = none ∧ hostField u s s' i = u) ∨ ∃ g, hostLabel s' = some g ∧
      ((hostLabel s = some g ∧ hostField u s s' i = u.incLen g) ∨
        (hostLabel s ≠ some g ∧ hostField u s s' i = (startField u g i).incLen g)) := by
  cases h with
  | userinfoEnd hs | close hs | colon hs => exact .inl ⟨rfl, rfl⟩
  | bracket => exact .inl ⟨rfl, rfl⟩
  | zoneStart => exact .inr ⟨.host, rfl, .inl ⟨rfl, rfl⟩⟩
  | zone hs h =>
    refine .inr ⟨.host, rfl, .inl ⟨?_, rfl⟩⟩
    rcases hs with rfl | rfl <;> rfl
  | userinfo hs h =>
    refine .inr ⟨.userinfo, rfl, ?_⟩
    rcases hs with rfl | rfl
    · exact .inr ⟨by decide, rfl⟩
    · exact .inl ⟨rfl, rfl⟩
  | host hs h | v6 hs h =>
    refine .inr ⟨.host, rfl, ?_⟩
    rcases hs with rfl | rfl
    · exact .inr ⟨by decide, rfl⟩
    · exact .inl ⟨rfl, rfl⟩
  | port hs h =>
    refine .inr ⟨.port, rfl, ?_⟩
    rcases hs with rfl | rfl
    · exact .inr ⟨by decide, rfl⟩
    · exact .inl ⟨rfl, rfl⟩

theorem startField_of_ne {u : Url} {f g : UrlField} (hne : f ≠ g) (i : Nat) :
    (startField u g i).off f = u.off f ∧ (startField u g i).len f = u.len f ∧
      (startField u g i).fieldSet f = u.fieldSet f := by
  unfold startField
  split <;> simp [Url.setOff, Url.setLen, Url.mark, Function.update_of_ne hne]

theorem startField_self (u : Url) (f : UrlField) (i : Nat) :
    (startField u f i).off f = i % 2 ^ 16 ∧
      (startField u f i).len f = (if f = .host then u.len f else 0) ∧
      (startField u f i).fieldSet f = (u.fieldSet f || decide (f ≠ .host)) := by
  unfold startField
  split <;> simp [Url.setOff, Url.setLen, Url.mark, *]

/-- **What `http_parse_host` notes of a character.** -/
theorem hostField_spec {s s' : HostState} {ch : UInt8} (h : HostStep s ch s') (u : Url) (i : Nat)
    (f : UrlField) :
    (hostLabel s' ≠ some f → (hostField u s s' i).off f = u.off f ∧
      (hostField u s s' i).len f = u.len f) ∧
    (hostLabel s' = some f → hostLabel s = some f → (hostField u s s' i).off f = u.off f ∧
      (hostField u s s' i).len f = (u.len f + 1) % 2 ^ 16) ∧
    (hostLabel s' = some f → hostLabel s ≠ some f → (f = .host → u.len f = 0) →
      (hostField u s s' i).off f = i % 2 ^ 16 ∧ (hostField u s s' i).len f = 1) ∧
    (hostField u s s' i).fieldSet f =
      (u.fieldSet f || decide (hostLabel s' = some f ∧ hostLabel s ≠ some f ∧ f ≠ .host)) := by
  rcases hostField_cases h u i with ⟨hnone, hu⟩ | ⟨g, hg, hu⟩
  · rw [hnone, hu]
    simp
  · rw [hg]
    by_cases hne : f = g
    · subst hne
      obtain ⟨hoff, hlen, hset⟩ := startField_self u f i
      rcases hu with ⟨hs, hu⟩ | ⟨hs, hu⟩
      · rw [hs, hu]
        simp [Url.incLen, Url.setLen]
      · rw [hu]
        refine ⟨fun hno => absurd rfl hno, fun _ hin => absurd hin hs, fun _ _ hzero => ?_, ?_⟩
        -- the length of the host is not set to 0 where it starts, but before the loop
        · refine ⟨hoff, ?_⟩
          have hstart : (startField u f i).len f = 0 := by
            rw [hlen]
            split
            · next hhost => exact hzero hhost
            · rfl
          simp [Url.incLen, Url.setLen, hstart]
        · have hsame : ((startField u f i).incLen f).fieldSet f = (startField u f i).fieldSet f :=
            rfl
          rw [hsame, hset]
          simp [hs]
    · obtain ⟨hoff, hlen, hset⟩ := startField_of_ne (u := u) hne i
      have hout : some g ≠ some f := fun h => hne (Option.some.inj h).symm
      rcases hu with ⟨-, hu⟩ | ⟨-, hu⟩
      · rw [hu]
        simp [Url.incLen, Url.setLen, hout, Function.update_of_ne hne]
      · rw [hu]
        simp [Url.incLen, Url.setLen, hout, Function.update_of_ne hne, hoff, hlen, hset]

/-- The state in which the host automaton starts. -/
def hostStart (foundAt : Bool) : HostState := if foundAt then .userinfoStart else .hostStart

/-- What is read into a field of the server part. -/
def hostPart (foundAt : Bool) (f : UrlField) (w : Bytes) : Bytes :=
  readInto parseHostChar hostLabel f (hostStart foundAt) w

def hostRun (foundAt : Bool) (w : Bytes) : HostState := w.foldl parseHostChar (hostStart foundAt)

/-- The states in which a server part may end. -/
def HostState.accepts (s : HostState) : Prop := s = .host ∨ s = .hostV6End ∨ s = .hostPort

/-- What the loop of `http_parse_host` knows after `pre`, which starts at `base`; `u₀` is what was
known before. -/
structure HostNoted (buf : Bytes) (base : Nat) (foundAt : Bool) (u₀ : Url) (pre : Bytes) (u : Url) :
    Prop where
  noted : ∀ f, f.inHost → Noted parseHostChar hostLabel buf base (hostStart foundAt) pre u f
  marked : ∀ f, f = .userinfo ∨ f = .port → (u.fieldSet f = true ↔ hostPart foundAt f pre ≠ [])
  others : ∀ f, ¬ f.inHost → u.off f = u₀.off f ∧ u.len f = u₀.len f
  kept : ∀ f, f ≠ .userinfo → f ≠ .port → u.fieldSet f = u₀.fieldSet f

section

variable {buf pre : Bytes} {base : Nat} {foundAt : Bool} {u₀ u : Url} {ch : UInt8} {rest : Bytes}

theorem hostRun_snoc (foundAt : Bool) (w : Bytes) (ch : UInt8) :
    hostRun foundAt (w ++ [ch]) = parseHostChar (hostRun foundAt w) ch := by
  rw [hostRun, List.foldl_append]
  rfl

theorem hostPart_snoc (foundAt : Bool) (f : UrlField) (pre : Bytes) (ch : UInt8) :
    hostPart foundAt f (pre ++ [ch]) = hostPart foundAt f pre ++
      if hostLabel (parseHostChar (hostRun foundAt pre) ch) = some f then [ch] else [] :=
  readInto_snoc _ _ _

theorem hostPart_eq_nil {f : UrlField} (hout : hostLabel (hostRun foundAt pre) ≠ some f)
    (hin : hostLabel (parseHostChar (hostRun foundAt pre) ch) = some f) :
    hostPart foundAt f pre = [] :=
  readInto_eq_nil_of_enters hostPhase_le (hostLabel_iff f) hout hin

theorem inHost_of_label {f : UrlField} {s : HostState} (h : hostLabel s = some f) : f.inHost := by
  cases s <;> cases h <;> simp [UrlField.inHost]

theorem hostLabel_start (foundAt : Bool) (f : UrlField) :
    hostLabel (hostStart foundAt) ≠ some f := by
  cases foundAt <;> simp [hostStart, hostLabel]

/-- One character of the server part. -/
theorem HostNoted.snoc (h : HostNoted buf base foundAt u₀ pre u) (hfit : buf.length < 2 ^ 16)
    (hat : buf[base + pre.length]? = some ch)
    (hlive : parseHostChar (hostRun foundAt pre) ch ≠ .dead) :
    HostNoted buf base foundAt u₀ (pre ++ [ch])
      (hostField u (hostRun foundAt pre) (parseHostChar (hostRun foundAt pre) ch)
        (base + pre.length)) := by
  have hlt : base + pre.length < buf.length := (List.getElem?_eq_some_iff.mp hat).1
  have hspec (f : UrlField) :=
    hostField_spec ((parseHostChar_step _ ch).resolve_left hlive) u (base + pre.length) f
  constructor
  case noted =>
    intro f hf
    obtain ⟨hkeep, hgrow, henter, -⟩ := hspec f
    refine (h.noted f hf).snoc hat hkeep ?_ ?_
    · intro hin hcurrent
      have hends := (h.noted f hf).ends hcurrent
      -- the length is a uint16_t, and what it counts is in the buffer
      rw [Nat.mod_eq_of_lt (by omega)] at hgrow
      exact hgrow hin hcurrent
    · intro hin hout
      have hnil : hostPart foundAt f pre = [] := hostPart_eq_nil hout hin
      have hzero : u.len f = 0 := by
        rw [(h.noted f hf).len]
        exact congrArg List.length hnil
      rw [Nat.mod_eq_of_lt (by omega)] at henter
      exact ⟨hnil, henter hin hout fun _ => hzero⟩
  case marked =>
    intro f hf
    obtain ⟨-, -, -, hset⟩ := hspec f
    -- the bit of the host has been set before the loop
    have hne : f ≠ .host := by
      rcases hf with rfl | rfl <;> decide
    rw [hset, Bool.or_eq_true, h.marked f hf, decide_eq_true_iff, hostPart_snoc]
    by_cases hin : hostLabel (parseHostChar (hostRun foundAt pre) ch) = some f
    · rw [if_pos hin]
      refine iff_of_true ?_ (by simp)
      by_cases hout : hostLabel (hostRun foundAt pre) = some f
      · exact .inl (readInto_ne_nil (hostLabel_start foundAt f) hout)
      · exact .inr ⟨hin, hout, hne⟩
    · rw [if_neg hin, List.append_nil]
      exact or_iff_left fun hno => hin hno.1
  case others =>
    intro f hf
    obtain ⟨hkeep, -⟩ := hspec f
    obtain ⟨hoff, hlen⟩ := hkeep fun hin => hf (inHost_of_label hin)
    obtain ⟨hoff₀, hlen₀⟩ := h.others f hf
    exact ⟨hoff.trans hoff₀, hlen.trans hlen₀⟩
  case kept =>
    intro f huserinfo hport
    obtain ⟨-, -, -, hset⟩ := hspec f
    rw [hset, h.kept f huserinfo hport]
    have hno : ¬ (hostLabel (parseHostChar (hostRun foundAt pre) ch) = some f ∧
        hostLabel (hostRun foundAt pre) ≠ some f ∧ f ≠ .host) := by
      rintro ⟨hin, -, hhost⟩
      rcases inHost_of_label hin with h | h | h
      · exact hhost h
      · exact huserinfo h
      · exact hport h
    rw [decide_eq_false hno, Bool.or_false]

theorem hostDead_of_dead (w : Bytes) : w.foldl parseHostChar .dead = .dead :=
  foldl_of_stays fun _ _ => rfl

/-- **The loop of `http_parse_host` reads the segments of the server part.** -/
theorem parseHostLoop_eq (hfit : buf.length < 2 ^ 16) {w rest : Bytes} (hw : w = pre ++ rest)
    (hbuf : (buf.drop base).take w.length = w) (hlive : hostRun foundAt pre ≠ .dead)
    (h : HostNoted buf base foundAt u₀ pre u) :
    (hostRun foundAt w = .dead →
      parseHostLoop rest (base + pre.length) (hostRun foundAt pre) u = none) ∧
    (hostRun foundAt w ≠ .dead → ∃ u',
      parseHostLoop rest (base + pre.length) (hostRun foundAt pre) u =
        some (hostRun foundAt w, u') ∧ HostNoted buf base foundAt u₀ w u') := by
  -- on what is left of the server part; `pre` is what the automaton has read
  induction rest generalizing pre u with
  | nil =>
    rw [List.append_nil] at hw
    subst hw
    exact ⟨fun hdead => absurd hdead hlive, fun _ => ⟨u, rfl, h⟩⟩
  | cons ch rest ih =>
    have hnext : w = pre ++ [ch] ++ rest := by rw [hw, List.append_assoc]; rfl
    have hlen : base + pre.length + 1 = base + (pre ++ [ch]).length := by
      rw [List.length_append, Nat.add_assoc]
      rfl
    have hrun := hostRun_snoc foundAt pre ch
    rw [parseHostLoop, hlen]
    by_cases hch : parseHostChar (hostRun foundAt pre) ch = .dead
    · have hdead : hostRun foundAt w = .dead := by
        rw [hnext, hostRun, List.foldl_append]
        show rest.foldl parseHostChar (hostRun foundAt (pre ++ [ch])) = _
        rw [hrun, hch, hostDead_of_dead]
      exact ⟨fun _ => if_pos hch, fun hno => absurd hdead hno⟩
    · have hat : buf[base + pre.length]? = some ch := by
        have hget : ((buf.drop base).take w.length)[pre.length]? = some ch := by
          rw [hbuf, hw]
          simp
        have hlt : pre.length < w.length := by
          rw [hw, List.length_append, List.length_cons]
          omega
        rwa [List.getElem?_take_of_lt hlt, List.getElem?_drop] at hget
      rw [if_neg hch]
      have hstep := ih hnext (by rwa [hrun]) (h.snoc hfit hat hch)
      rwa [hrun] at hstep

/-- Before the loop; `http_parse_host` sets the length of the host to 0. -/
theorem hostNoted_nil (buf : Bytes) (foundAt : Bool)
    (hfresh : ∀ f, f = .userinfo ∨ f = .port → u.len f = 0 ∧ u.fieldSet f = false) :
    HostNoted buf (u.off .host) foundAt u [] (u.setLen .host 0) := by
  have hzero : ∀ f, f.inHost → (u.setLen .host 0).len f = 0 := by
    intro f hf
    by_cases hhost : f = .host
    · rw [hhost]
      simp [Url.setLen]
    · have hsame : (u.setLen .host 0).len f = u.len f := Function.update_of_ne hhost _ _
      rw [hsame]
      exact (hfresh f (hf.resolve_left hhost)).1
  constructor
  case noted =>
    intro f hf
    have hdata : (u.setLen .host 0).field buf f = [] := by
      rw [Url.field, hzero f hf, List.take_zero]
    exact ⟨hzero f hf, hdata, fun h => absurd h (hostLabel_start foundAt f)⟩
  case marked =>
    intro f hf
    show u.fieldSet f = true ↔ _
    rw [(hfresh f hf).2]
    exact iff_of_false (by simp) fun hne => hne rfl
  case others =>
    intro f hf
    have hhost : f ≠ .host := fun h => hf (.inl h)
    exact ⟨rfl, Function.update_of_ne hhost _ _⟩
  case kept => exact fun _ _ _ => rfl

/-- **`http_parse_host` accepts a server part where its automaton does, and notes its segments.** -/
theorem parseHost_eq (hfit : buf.length < 2 ^ 16) (u : Url) (foundAt : Bool) {w : Bytes}
    (hlen : u.len .host = w.length) (hw : u.field buf .host = w)
    (hfresh : ∀ f, f = .userinfo ∨ f = .port → u.len f = 0 ∧ u.fieldSet f = false) :
    (¬ (hostRun foundAt w).accepts → parseHost buf u foundAt = none) ∧
    ((hostRun foundAt w).accepts → ∃ u', parseHost buf u foundAt = some u' ∧
      HostNoted buf (u.off .host) foundAt u w u') := by
  have hbuf : (buf.drop (u.off .host)).take w.length = w := by
    rw [← hlen]
    exact hw
  have hstart : hostRun foundAt [] ≠ .dead := by cases foundAt <;> decide
  obtain ⟨hdead, hlive⟩ := parseHostLoop_eq hfit (rfl : w = [] ++ w) hbuf hstart
    (hostNoted_nil buf foundAt hfresh)
  by_cases hend : hostRun foundAt w = .dead
  · have hloop : parseHostLoop w (u.off .host) (if foundAt then .userinfoStart else .hostStart)
        (u.setLen .host 0) = none := hdead hend
    constructor
    · intro _
      rw [parseHost, hw, hloop]
    · intro haccepts
      rw [hend] at haccepts
      rcases haccepts with h | h | h <;> cases h
  · obtain ⟨u', hloop, hnoted⟩ := hlive hend
    have hloop : parseHostLoop w (u.off .host) (if foundAt then .userinfoStart else .hostStart)
        (u.setLen .host 0) = some (hostRun foundAt w, u') := hloop
    rw [parseHost, hw, hloop]
    dsimp only
    -- behind the loop only the last state counts
    generalize hostRun foundAt w = s at hend
    constructor
    · intro hno
      cases s with
      | dead => exact absurd rfl hend
      | host => exact absurd (.inl rfl) hno
      | hostV6End => exact absurd (.inr (.inl rfl)) hno
      | hostPort => exact absurd (.inr (.inr rfl)) hno
      | _ => rfl
    · intro haccepts
      refine ⟨u', ?_, hnoted⟩
      rcases haccepts with h | h | h <;> rw [h]

end

end Luwu.HttpParser
