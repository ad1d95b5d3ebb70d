import Luwu.Http.Parser
import Luwu.Stream.Fixed

/-!
# Receiving over reads that can fail

`recvRequest` and `recvResponse` add the `size_t` that `read` returns to the bytes they have kept,
and pass the sum to the parser.  `len <= 0` recognises the end of the stream, but not `-1`: then
the sum is one less than the bytes kept, and the largest `size_t` when nothing has been kept.

`recvResponse` also writes a zero behind the bytes it passes, into a buffer that is one byte longer.
-/

namespace Luwu.Http

open HttpParser

/-- What has become of a call of `recvRequest` or `recvResponse`. -/
inductive Receiving (μ : Type) where
  /-- It is about to read; `kept` are the bytes at the front of the buffer. -/
  | reading (q : MessageParser μ) (kept : Bytes)
  /-- It has closed the stream and returned `nullptr`. -/
  | closed
  /-- It has returned the message of the parser. -/
  | finished (q : MessageParser μ)
  /-- It has passed bytes to the parser that it has not received, or written outside its buffer. -/
  | overrun
deriving DecidableEq

/-- The parser and the bytes kept by a call that is about to read. -/
def Receiving.pending {μ : Type} : Receiving μ → Option (MessageParser μ × Bytes)
  | reading q kept => some (q, kept)
  | closed => none
  | finished _ => none
  | overrun => none

structure Reception (μ : Type) where
  state : Receiving μ
  /-- How many bytes of the peer have been read. -/
  taken : Nat := 0
  /-- The calls of the parser: the length passed, and the bytes received into the buffer. -/
  calls : List (Nat × Nat) := []
deriving DecidableEq

section

variable {μ : Type} (execute : MessageParser μ → Bytes → Nat × MessageParser μ) (terminated : Bool)
  (bufferSize : Nat) (input : Nat → UInt8)

/-- The next `n` bytes of the peer when `taken` have been read. -/
def nextBytes (taken n : Nat) : Bytes := (List.range n).map fun i => input (taken + i)

/-- The end of a turn, after the parser has returned `e`. -/
def afterParse (e : Nat × MessageParser μ) (kept : Bytes) : Receiving μ :=
  if e.2.error ≠ .ok then .closed
  else if kept.length = bufferSize then .closed
  else if e.2.owner.finished then .finished e.2
  else .reading e.2 kept

/-- A turn of the loop that starts with `reading q kept`. -/
def receiveTurn (x : Reception μ) (q : MessageParser μ) (kept : Bytes) (r : Reply) : Reception μ :=
  let room := bufferSize - kept.length
  let len := toSize (r.result room)
  if len ≤ 0 then { x with state := .closed }
  else
    let taken := x.taken + r.count room
    let data := kept ++ nextBytes input x.taken (r.count room)
    let len := (len + kept.length) % 2 ^ 64
    -- `data[len] = '\0'` in a buffer of `bufferSize + 1` bytes
    if terminated ∧ bufferSize < len then { x with state := .overrun, taken }
    else
      let calls := x.calls ++ [(len, data.length)]
      if data.length < len then { state := .overrun, taken, calls }
      else
        let e := execute q (data.take len)
        { state := afterParse bufferSize e ((data.take len).drop e.1), taken, calls }

/-- The loop after at most `n` reads. -/
def reception (q : MessageParser μ) (replies : Nat → Reply) : Nat → Reception μ
  | 0 => { state := .reading q [] }
  | n + 1 =>
    match (reception q replies n).state with
    | .reading q' kept =>
      receiveTurn execute terminated bufferSize input (reception q replies n) q' kept (replies n)
    | .closed => reception q replies n
    | .finished _ => reception q replies n
    | .overrun => reception q replies n

end

/-- `HttpSession::recvRequest` after at most `n` reads. -/
def HttpSession.recvRequest (bufferSize : Nat) (input : Nat → UInt8) (replies : Nat → Reply)
    (n : Nat) : Reception HttpRequest :=
  reception HttpRequestParser.execute false bufferSize input HttpRequestParser.new replies n

/-- `HttpConnection::recvResponse` after at most `n` reads. -/
def HttpConnection.recvResponse (bufferSize : Nat) (input : Nat → UInt8) (replies : Nat → Reply)
    (n : Nat) : Reception HttpResponse :=
  reception HttpResponseParser.execute true bufferSize input HttpResponseParser.new replies n

/-! ## What receiving is to do -/

/-- The parser is passed no more than has been received, and a read that ends as `ends` says closes
the stream without another call of the parser. -/
structure ReceivesSafely {μ : Type} (ends : Reply → Prop) (replies : Nat → Reply)
    (run : Nat → Reception μ) : Prop where
  lengths : ∀ n, ∀ c ∈ (run n).calls, c.1 ≤ c.2
  closes : ∀ k q kept, (run k).state = .reading q kept → ends (replies k) →
    (run (k + 1)).state = .closed ∧ (run (k + 1)).calls = (run k).calls

section

variable {μ : Type} (execute : MessageParser μ → Bytes → Nat × MessageParser μ)
  (bufferSize : Nat) (input : Nat → UInt8)

/-- The parser, the bytes kept and the bytes read when the first `k` reads have all brought bytes
and the message is not finished: `none` when it is, or cannot be any more. -/
def expecting (q : MessageParser μ) (replies : Nat → Reply) :
    Nat → Option (MessageParser μ × Bytes × Nat)
  | 0 => some (q, [], 0)
  | k + 1 =>
    match expecting q replies k, replies k with
    | some (q', kept, taken), .moved j =>
      let n := min (j + 1) (bufferSize - kept.length)
      let data := kept ++ nextBytes input taken n
      let e := execute q' data
      if n = 0 then none
      else (afterParse bufferSize e (data.drop e.1)).pending.map fun r => (r.1, r.2, taken + n)
    | _, _ => none

end

variable {μ : Type} {execute : MessageParser μ → Bytes → Nat × MessageParser μ} {terminated : Bool}
  {bufferSize : Nat} {input : Nat → UInt8} {q q' : MessageParser μ} {kept : Bytes}
  {replies : Nat → Reply} {x : Reception μ}

theorem length_nextBytes (taken n : Nat) : (nextBytes input taken n).length = n := by
  rw [nextBytes, List.length_map, List.length_range]

theorem receiveTurn_moved (hsize : bufferSize < 2 ^ 64) (hkept : kept.length < bufferSize)
    (j : Nat) :
    receiveTurn execute terminated bufferSize input x q kept (.moved j) =
      let n := min (j + 1) (bufferSize - kept.length)
      let data := kept ++ nextBytes input x.taken n
      { state := afterParse bufferSize (execute q data) (data.drop (execute q data).1)
        taken := x.taken + n
        calls := x.calls ++ [(data.length, data.length)] } := by
  have hlen : toSize ((Reply.moved j).result (bufferSize - kept.length)) =
      min (j + 1) (bufferSize - kept.length) := toSize_natCast (by omega)
  have hdata : (kept ++ nextBytes input x.taken (min (j + 1) (bufferSize - kept.length))).length =
      kept.length + min (j + 1) (bufferSize - kept.length) := by
    rw [List.length_append, length_nextBytes]
  have hsum : (min (j + 1) (bufferSize - kept.length) + kept.length) % 2 ^ 64 =
      (kept ++ nextBytes input x.taken (min (j + 1) (bufferSize - kept.length))).length := by
    rw [hdata]
    omega
  have hcount : (Reply.moved j).count (bufferSize - kept.length) =
      min (j + 1) (bufferSize - kept.length) := rfl
  unfold receiveTurn
  dsimp only
  rw [hlen, hcount, if_neg (by omega), hsum]
  have hfit : ¬ (terminated = true ∧ bufferSize <
      (kept ++ nextBytes input x.taken (min (j + 1) (bufferSize - kept.length))).length) := by
    rw [hdata]
    omega
  rw [if_neg hfit, if_neg (Nat.lt_irrefl _), List.take_length]

theorem receiveTurn_zero :
    receiveTurn execute terminated bufferSize input x q kept .zero = { x with state := .closed } :=
  rfl

/-- A read that fails never closes the stream quietly. -/
theorem receiveTurn_failed (execute : MessageParser μ → Bytes → Nat × MessageParser μ)
    (terminated : Bool) (bufferSize : Nat) (input : Nat → UInt8) (x : Reception μ)
    (q : MessageParser μ) (kept : Bytes) :
    (receiveTurn execute terminated bufferSize input x q kept .failed).state = .overrun ∨
      (receiveTurn execute terminated bufferSize input x q kept .failed).calls ≠ x.calls := by
  unfold receiveTurn
  dsimp only
  -- `-1` is the largest `size_t`, which `len <= 0` lets pass
  rw [show toSize (Reply.result (bufferSize - kept.length) .failed) = 2 ^ 64 - 1 from rfl,
    if_neg (by omega)]
  split
  · exact .inl rfl
  · split
    · exact .inl rfl
    · refine .inr ?_
      intro hcalls
      have := congrArg List.length hcalls
      rw [List.length_append, List.length_singleton] at this
      omega

/-- With a buffer of no bytes every read that does not fail brings none. -/
theorem receiveTurn_noRoom (hkept : bufferSize ≤ kept.length) (j : Nat) :
    receiveTurn execute terminated bufferSize input x q kept (.moved j) =
      { x with state := .closed } := by
  have hlen : toSize ((Reply.moved j).result (bufferSize - kept.length)) = 0 := by
    rw [show bufferSize - kept.length = 0 by omega]
    show toSize (min (j + 1) 0 : Nat) = 0
    rw [Nat.min_zero]
    rfl
  unfold receiveTurn
  dsimp only
  rw [hlen, if_pos (Nat.le_refl 0)]

theorem Receiving.pending_eq_some {s : Receiving μ} :
    s.pending = some (q, kept) ↔ s = .reading q kept := by
  cases s <;> simp [pending]

theorem afterParse_reading {e : Nat × MessageParser μ} {kept' : Bytes}
    (h : afterParse bufferSize e kept' = .reading q kept) :
    kept = kept' ∧ kept.length ≠ bufferSize := by
  unfold afterParse at h
  split at h
  · cases h
  · split at h
    · cases h
    · rename_i hfull
      split at h
      · cases h
      · cases h
        exact ⟨rfl, hfull⟩

theorem reception_reading {n : Nat}
    (h : (reception execute terminated bufferSize input q replies n).state = .reading q' kept) :
    reception execute terminated bufferSize input q replies (n + 1) =
      receiveTurn execute terminated bufferSize input
        (reception execute terminated bufferSize input q replies n) q' kept (replies n) := by
  rw [reception, h]

theorem reception_ended {n : Nat}
    (h : (reception execute terminated bufferSize input q replies n).state.pending = none) :
    reception execute terminated bufferSize input q replies (n + 1) =
      reception execute terminated bufferSize input q replies n := by
  rw [reception]
  cases hs : (reception execute terminated bufferSize input q replies n).state with
  | reading q' kept =>
    rw [hs] at h
    cases h
  | closed => rfl
  | finished q' => rfl
  | overrun => rfl

/-- The loop is about to read with the parser and the bytes that are expected. -/
structure AtRead (bufferSize : Nat) (r : MessageParser μ × Bytes × Nat) (x : Reception μ) :
    Prop where
  state : x.state = .reading r.1 r.2.1
  taken : x.taken = r.2.2
  room : r.2.1.length ≤ bufferSize

/-- A read that brings bytes, as the loop and as `expecting` take it. -/
theorem AtRead.moved (hsize : bufferSize < 2 ^ 64) {r : MessageParser μ × Bytes × Nat} {k j : Nat}
    (hr : replies k = .moved j)
    (hx : AtRead bufferSize r (reception execute terminated bufferSize input q replies k))
    (he : expecting execute bufferSize input q replies k = some r) :
    (∀ c ∈ (reception execute terminated bufferSize input q replies (k + 1)).calls,
      c ∈ (reception execute terminated bufferSize input q replies k).calls ∨ c.1 = c.2) ∧
    ((reception execute terminated bufferSize input q replies (k + 1)).state.pending = none ∧
        expecting execute bufferSize input q replies (k + 1) = none ∨
      ∃ r', expecting execute bufferSize input q replies (k + 1) = some r' ∧
        AtRead bufferSize r'
          (reception execute terminated bufferSize input q replies (k + 1))) := by
  obtain ⟨q', kept, taken⟩ := r
  have hstate : (reception execute terminated bufferSize input q replies k).state =
      .reading q' kept := hx.state
  have htaken : _ = taken := hx.taken
  have hroom : kept.length ≤ bufferSize := hx.room
  rw [reception_reading hstate, hr, expecting, he, hr]
  by_cases hfull : kept.length = bufferSize
  · -- a full buffer can only be one of no bytes at all
    rw [receiveTurn_noRoom (Nat.le_of_eq hfull.symm)]
    refine ⟨fun c hc => .inl hc, .inl ⟨rfl, ?_⟩⟩
    dsimp only
    rw [if_pos (by omega)]
  · rw [receiveTurn_moved hsize (by omega), htaken]
    dsimp only
    rw [if_neg (by omega)]
    generalize hd : kept ++ nextBytes input taken (min (j + 1) (bufferSize - kept.length)) = data
    have hlen : data.length = kept.length + min (j + 1) (bufferSize - kept.length) := by
      rw [← hd, List.length_append, length_nextBytes]
    constructor
    · intro c hc
      rcases List.mem_append.mp hc with hc | hc
      · exact .inl hc
      · rw [List.mem_singleton.mp hc]
        exact .inr rfl
    · cases hp :
          (afterParse bufferSize (execute q' data) (data.drop (execute q' data).1)).pending with
      | none => exact .inl ⟨rfl, rfl⟩
      | some p =>
        obtain ⟨q'', kept'⟩ := p
        have hreading := Receiving.pending_eq_some.mp hp
        -- what the parser has left is shorter than what it was passed
        obtain ⟨hkept, -⟩ := afterParse_reading hreading
        refine .inr ⟨_, rfl, ⟨hreading, rfl, ?_⟩⟩
        show kept'.length ≤ bufferSize
        rw [hkept, List.length_drop]
        omega

/-- While a message is expected, the loop is about to read. -/
theorem atRead_of_expecting (hsize : bufferSize < 2 ^ 64) {k : Nat}
    {r : MessageParser μ × Bytes × Nat}
    (he : expecting execute bufferSize input q replies k = some r) :
    AtRead bufferSize r (reception execute terminated bufferSize input q replies k) := by
  induction k generalizing r with
  | zero =>
    cases he
    exact ⟨rfl, rfl, Nat.zero_le _⟩
  | succ k ih =>
    cases hk : expecting execute bufferSize input q replies k with
    | none =>
      rw [expecting, hk] at he
      cases he
    | some r₀ =>
      cases hr : replies k with
      | moved j =>
        rcases (AtRead.moved hsize hr (ih hk) hk).2 with ⟨-, hnone⟩ | ⟨r', hr', hx'⟩
        · rw [hnone] at he
          cases he
        · rw [hr'] at he
          cases he
          exact hx'
      | zero =>
        rw [expecting, hk, hr] at he
        cases he
      | failed =>
        rw [expecting, hk, hr] at he
        cases he

/-- As long as no read fails while a message is expected, the parser gets what has been received,
and the loop is about to read only while a message is expected. -/
theorem orderly (hsize : bufferSize < 2 ^ 64)
    (hfail : ∀ k, replies k = .failed → expecting execute bufferSize input q replies k = none)
    (n : Nat) :
    (∀ c ∈ (reception execute terminated bufferSize input q replies n).calls, c.1 ≤ c.2) ∧
      ((reception execute terminated bufferSize input q replies n).state.pending = none ∨
        ∃ r, expecting execute bufferSize input q replies n = some r) := by
  induction n with
  | zero => exact ⟨fun c hc => absurd hc List.not_mem_nil, .inr ⟨_, rfl⟩⟩
  | succ n ih =>
    obtain ⟨hlengths, hended | ⟨r, he⟩⟩ := ih
    · -- the call has ended before this turn
      rw [reception_ended hended]
      exact ⟨hlengths, .inl hended⟩
    · have hx : AtRead bufferSize r (reception execute terminated bufferSize input q replies n) :=
        atRead_of_expecting hsize he
      cases hr : replies n with
      | moved j =>
        obtain ⟨hcalls, hnext⟩ := AtRead.moved hsize hr hx he
        constructor
        · intro c hc
          rcases hcalls c hc with hold | heq
          · exact hlengths c hold
          · exact Nat.le_of_eq heq
        · rcases hnext with ⟨hnone, -⟩ | ⟨r', hr', -⟩
          · exact .inl hnone
          · exact .inr ⟨r', hr'⟩
      | zero =>
        rw [reception_reading hx.state, hr, receiveTurn_zero]
        exact ⟨hlengths, .inl rfl⟩
      | failed =>
        rw [hfail n hr] at he
        cases he

/-- The loop receives safely exactly when no read fails while a message is expected. -/
theorem receivesSafely_iff (hsize : bufferSize < 2 ^ 64) {ends : Reply → Prop}
    (hends : ends .failed) (hmoved : ∀ j, ¬ ends (.moved j)) :
    ReceivesSafely ends replies (reception execute terminated bufferSize input q replies) ↔
      ∀ k, replies k = .failed → expecting execute bufferSize input q replies k = none := by
  constructor
  · intro h k hk
    cases he : expecting execute bufferSize input q replies k with
    | none => rfl
    | some r =>
      -- the read of this turn fails, and the turn does not close the stream
      have hx : AtRead bufferSize r (reception execute terminated bufferSize input q replies k) :=
        atRead_of_expecting hsize he
      obtain ⟨hclosed, hcalls⟩ := h.closes k _ _ hx.state (by rw [hk]; exact hends)
      rw [reception_reading hx.state, hk] at hclosed hcalls
      rcases receiveTurn_failed execute terminated bufferSize input
        (reception execute terminated bufferSize input q replies k) r.1 r.2.1 with hover | hnew
      · rw [hover] at hclosed
        cases hclosed
      · exact absurd hcalls hnew
  · intro hfail
    refine ⟨fun n => (orderly hsize hfail n).1, ?_⟩
    intro k q' kept hstate hend
    rw [reception_reading hstate]
    cases hr : replies k with
    | moved j =>
      rw [hr] at hend
      exact absurd hend (hmoved j)
    | zero =>
      rw [receiveTurn_zero]
      exact ⟨rfl, rfl⟩
    | failed =>
      obtain ⟨-, hnone | ⟨r, he⟩⟩ :
          (∀ c ∈ (reception execute terminated bufferSize input q replies k).calls,
            c.1 ≤ c.2) ∧ _ :=
        orderly hsize hfail k
      · rw [hstate] at hnone
        cases hnone
      · rw [hfail k hr] at he
        cases he

/-- **Receiving a message.**  `recvRequest` and `recvResponse` pass to the parser no more than they
have received, and close the stream at a read that fails (`recvRequest` also at the end of the
stream) without another call of the parser, exactly when no read returns `-1` while the message is
incomplete. -/
theorem receive_safely_iff (bufferSize : Nat) (hsize : bufferSize < 2 ^ 64) (input : Nat → UInt8)
    (replies : Nat → Reply) :
    (ReceivesSafely (fun r => r = .zero ∨ r = .failed) replies
        (HttpSession.recvRequest bufferSize input replies) ↔
      ∀ k, replies k = .failed →
        expecting HttpRequestParser.execute bufferSize input HttpRequestParser.new replies k =
          none) ∧
    (ReceivesSafely (fun r => r = .failed) replies
        (HttpConnection.recvResponse bufferSize input replies) ↔
      ∀ k, replies k = .failed →
        expecting HttpResponseParser.execute bufferSize input HttpResponseParser.new replies k =
          none) := by
  constructor
  · exact receivesSafely_iff hsize (.inr rfl) (fun j hj => by cases hj <;> contradiction)
  · exact receivesSafely_iff hsize rfl (fun j hj => by cases hj)

/-- A peer that closes the connection after some bytes. -/
theorem receive_safely_end :
    ReceivesSafely (fun r => r = .zero ∨ r = .failed) (fun n => if n = 0 then .moved 3 else .zero)
      (HttpSession.recvRequest 4096 (fun _ => 71) fun n => if n = 0 then .moved 3 else .zero) :=
  (receive_safely_iff 4096 (by decide) (fun _ => 71) _).1.mpr (by
    intro k hk
    by_cases hz : k = 0
    · rw [if_pos hz] at hk
      cases hk
    · rw [if_neg hz] at hk
      cases hk)

/-- A connection that is reset before the first byte: the parser is passed `2 ^ 64 - 1` bytes. -/
theorem receive_unsafely_reset :
    ¬ ∀ (bufferSize : Nat), bufferSize < 2 ^ 64 → ∀ (input : Nat → UInt8) (replies : Nat → Reply),
      ReceivesSafely (fun r => r = .zero ∨ r = .failed) replies
          (HttpSession.recvRequest bufferSize input replies) ∧
        ReceivesSafely (fun r => r = .failed) replies
          (HttpConnection.recvResponse bufferSize input replies) := by
  intro h
  have hreq := (h 4096 (by decide) (fun _ => 0) fun _ => .failed).1
  have hlength := hreq.lengths 1 (2 ^ 64 - 1, 0) (List.mem_singleton.mpr rfl)
  exact absurd hlength (by decide)

end Luwu.Http
