import Luwu.Http.Receive

/-!
# The bodies of a run

The callbacks that `recvRequest` and `recvResponse` bring about, turn by turn, and what they make of
the body of the message: `on_body` appends what it is passed.
-/

namespace Luwu.Http

open Lib HttpParser

/-! ## The callbacks of a call -/

/-- The callbacks that `http_parser_execute` makes, each with the owner's data before it. -/
def asked {τ : Type} (h : HttpParser.Event → τ → Int × τ) (p : Parser) (data : Bytes) (t : τ) :
    List (HttpParser.Event × τ) :=
  if p.errno ≠ .ok then []
  else if data = [] then (executeEof (Scan.enter p)).asked h t
  else (executeBody data (Scan.enter p)).asked h t

/-- The bytes that a callback hands on as a part of the body. -/
def payload : HttpParser.Event → Bytes
  | (.data .body buf, _) => buf
  | _ => []

section

variable {μ : Type}

/-- The callbacks keep the body of a message, but for `on_body`, which appends to it. -/
structure BodyOf (c : Callbacks μ) (body : μ → Bytes) : Prop where
  url : ∀ buf d d', c.url buf d = some d' → body d' = body d
  status : ∀ p d, body (c.status p d) = body d
  setHeader : ∀ key val d, body (c.setHeader key val d) = body d
  headersComplete : ∀ p d, body (c.headersComplete p d) = body d
  appendBody : ∀ buf d, body (c.appendBody buf d) = body d ++ buf

variable {c : Callbacks μ} {body : μ → Bytes}

theorem BodyOf.handle (hc : BodyOf c body) (e : HttpParser.Event) (o : Owner μ) :
    body (c.handle e o).2.data = body o.data ++ payload e := by
  obtain ⟨cb, p⟩ := e
  cases cb with
  | data span buf =>
    cases span with
    | url =>
      rw [show payload (.data .url buf, p) = [] from rfl, List.append_nil]
      unfold Callbacks.handle
      dsimp only
      split
      · rfl
      · next d hd => exact hc.url _ _ _ hd
    | status => exact (hc.status p _).trans (List.append_nil _).symm
    | headerField => exact (List.append_nil _).symm
    | headerValue => exact (hc.setHeader _ _ _).trans (List.append_nil _).symm
    | body => exact hc.appendBody _ _
  | headersComplete => exact (hc.headersComplete p _).trans (List.append_nil _).symm
  | messageBegin => exact (List.append_nil _).symm
  | messageComplete => exact (List.append_nil _).symm
  | chunkHeader => exact (List.append_nil _).symm
  | chunkComplete => exact (List.append_nil _).symm

theorem BodyOf.threads (hc : BodyOf c body) {l : List (HttpParser.Event × Owner μ)} {o o' : Owner μ}
    (h : Inter.Threads c.handle o l o') :
    body o'.data = body o.data ++ l.flatMap fun m => payload m.1 := by
  induction l generalizing o with
  | nil =>
    cases h
    exact (List.append_nil _).symm
  | cons m l ih =>
    obtain ⟨-, hrest⟩ := h
    rw [ih hrest, hc.handle, List.append_assoc, List.flatMap_cons]

end

section

variable {μ : Type}

/-- The bytes that a turn passes to the parser, if it comes to that. -/
def passed (terminated : Bool) (bufferSize : Nat) (input : Nat → UInt8) (taken : Nat) (kept : Bytes)
    (r : Reply) : Option Bytes :=
  let room := bufferSize - kept.length
  let len := toSize (r.result room)
  if len ≤ 0 then none
  else
    let data := kept ++ nextBytes input taken (r.count room)
    let len := (len + kept.length) % 2 ^ 64
    if terminated ∧ bufferSize < len then none
    else if data.length < len then none
    else some (data.take len)

/-- The parser of a call, while it runs and when it has finished. -/
def Receiving.parser : Receiving μ → Option (MessageParser μ)
  | reading q _ => some q
  | closed => none
  | finished q => some q
  | overrun => none

variable (c : Callbacks μ) (terminated : Bool) (bufferSize : Nat) (input : Nat → UInt8)
  (replies : Nat → Reply) (run : Nat → Reception μ)

/-- The callbacks of the turn that follows `x`, with the owner's data before each. -/
def turnCallbacks (x : Reception μ) (r : Reply) : List (HttpParser.Event × Owner μ) :=
  match x.state with
  | .reading q kept =>
    match passed terminated bufferSize input x.taken kept r with
    | some data => asked c.handle q.parser data q.owner
    | none => []
  | .closed => []
  | .finished _ => []
  | .overrun => []

/-- The callbacks of the first `n` turns. -/
def callbacks : Nat → List (HttpParser.Event × Owner μ)
  | 0 => []
  | n + 1 => callbacks n ++ turnCallbacks c terminated bufferSize input (run n) (replies n)

/-- The body is no longer than the limit after any callback, nor is that of a message which is
returned. -/
structure KeepsLimit (body : μ → Bytes) (maxBody : Nat) : Prop where
  constructing : ∀ n, ∀ m ∈ callbacks c terminated bufferSize input replies run n,
    (body (c.handle m.1 m.2).2.data).length ≤ maxBody
  returned : ∀ n q, (run n).state = .finished q → (body q.owner.data).length ≤ maxBody

variable {c terminated bufferSize input replies} {body : μ → Bytes} {maxBody : Nat}
  {checkUpgrade : Bool} {q₀ : MessageParser μ}

end

end Luwu.Http
