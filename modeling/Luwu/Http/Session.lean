import Luwu.Http.Parser
import Luwu.Stream.Basic

/-!
# Sessions and connections

`recvRequest` and `recvResponse` read from the stream until the parser says that a message is
finished.  The two loops are alike; the buffer is local to a call.
-/

namespace Luwu.Http

open HttpParser

theorem read_input_lt {s : Stream} {n : Nat} (h : (s.read n).1 ≠ []) :
    (s.read n).2.input.length < s.input.length := by
  have htake : (s.input.take (Stream.portion s.sizes n)).length ≠ 0 := by
    intro hz
    exact h (List.length_eq_zero_iff.mp hz)
  rw [List.length_take] at htake
  show (s.input.drop _).length < _
  rw [List.length_drop]
  omega

section

variable {μ : Type} (execute : MessageParser μ → Bytes → Nat × MessageParser μ) (bufferSize : Nat)

/-- The loop of `recvRequest` and `recvResponse`: the parser that has finished, `none` for
`nullptr`.  `kept` are the bytes at the front of the buffer. -/
def receive (q : MessageParser μ) (kept : Bytes) (s : Stream) : Option (MessageParser μ) × Stream :=
  let r := s.read (bufferSize - kept.length)
  if hr : r.1 = [] then (none, r.2.close)
  else
    let data := kept ++ r.1
    let e := execute q data
    let kept := data.drop e.1
    if e.2.error ≠ .ok then (none, r.2.close)
    else if kept.length = bufferSize then (none, r.2.close)
    else if e.2.owner.finished then (some e.2, r.2)
    else
      have := read_input_lt hr
      receive e.2 kept r.2
termination_by s.input.length

variable {execute} {bufferSize}

theorem receive_first {q : MessageParser μ} {s : Stream} {d : Bytes}
    (hread : (s.read bufferSize).1 = d) (hd : d ≠ []) :
    receive execute bufferSize q [] s =
      if (execute q d).2.error ≠ .ok then (none, (s.read bufferSize).2.close)
      else if (d.drop (execute q d).1).length = bufferSize then (none, (s.read bufferSize).2.close)
      else if (execute q d).2.owner.finished then (some (execute q d).2, (s.read bufferSize).2)
      else receive execute bufferSize (execute q d).2 (d.drop (execute q d).1)
        (s.read bufferSize).2 := by
  have hr : (s.read (bufferSize - ([] : Bytes).length)).1 ≠ [] := by
    rw [List.length_nil, Nat.sub_zero, hread]
    exact hd
  rw [receive, dif_neg hr]
  simp only [List.length_nil, Nat.sub_zero, List.nil_append, hread]

theorem receive_end {q : MessageParser μ} {s : Stream} (hread : (s.read bufferSize).1 = []) :
    receive execute bufferSize q [] s = (none, (s.read bufferSize).2.close) := by
  have hr : (s.read (bufferSize - ([] : Bytes).length)).1 = [] := hread
  rw [receive, dif_pos hr]
  rfl

theorem receive_output (q : MessageParser μ) (kept : Bytes) (s : Stream) :
    (receive execute bufferSize q kept s).2.output = s.output := by
  fun_induction receive execute bufferSize q kept s with
  | case1 => rfl
  | case2 => rfl
  | case3 => rfl
  | case4 => rfl
  | case5 _ _ _ _ _ _ _ _ _ _ _ _ ih => exact ih

end

/-- `HttpSession::recvRequest`. -/
def recvRequest (bufferSize : Nat) (s : Stream) : Option HttpRequest × Stream :=
  let r := receive HttpRequestParser.execute bufferSize HttpRequestParser.new [] s
  (r.1.map fun q => q.owner.data.init, r.2)

/-- `HttpSession::sendResponse`. -/
def sendResponse (rsp : HttpResponse) (s : Stream) : Nat × Stream := s.writeFixSize rsp.dump

/-- `HttpConnection::recvResponse`. -/
def recvResponse (bufferSize : Nat) (s : Stream) : Option HttpResponse × Stream :=
  let r := receive HttpResponseParser.execute bufferSize HttpResponseParser.new [] s
  (r.1.map fun q => q.owner.data, r.2)

/-- `HttpConnection::sendRequest`. -/
def sendRequest (req : HttpRequest) (s : Stream) : Nat × Stream := s.writeFixSize req.dump

end Luwu.Http
