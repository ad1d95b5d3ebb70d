import Luwu.Http.RoundTrip
import Luwu.Http.Session
import Luwu.Util.Base64

/-!
# The opening handshake

`handleShake` reads a request, checks five of its headers and answers with the digest of the key.
The request parser, however, reports every request for another protocol as an error, so that a
request that passes the checks is never seen here.
-/

namespace Luwu.WebSocket

open Lib HttpParser Http
open HashUtil (base64encode)

/-! ## The handshake -/

/-- `boost::lexical_cast<int>`: an optional sign and decimal digits, within the range of `int`. -/
def lexicalCastInt (v : Bytes) : Option Int :=
  let digits := if v.head? = some '-'.toUInt8 ∨ v.head? = some '+'.toUInt8 then v.tail else v
  let n : Int := ofDigits digits
  let n := if v.head? = some '-'.toUInt8 then -n else n
  if digits ≠ [] ∧ (∀ c ∈ digits, isNum c) ∧ -2147483648 ≤ n ∧ n ≤ 2147483647 then some n else none

/-- `getHeaderAs<int> (key)`, whose default is 0. -/
def getHeaderAsInt (headers : MapType) (key : Bytes) : Int :=
  match headers.find key with
  | none => 0
  | some v => (lexicalCastInt v).getD 0

def guid : Bytes := ascii "258EAFA5-E914-47DA-95CA-C5AB0DC85B11"

/-- The value of `Sec-WebSocket-Accept` for a key. -/
def acceptValue (sha1sum : Bytes → Bytes) (key : Bytes) : Bytes :=
  base64encode (sha1sum (key ++ guid))

def shakeResponse (sha1sum : Bytes → Bytes) (req : HttpRequest) : HttpResponse :=
  let key := getHeader req.headers (ascii "Sec-WebSocket-Key")
  let rsp := { req.createResponse with
    status := 101
    webSocket := true
    reason := ascii "Web Socket Protocol Handshake" }
  ((rsp.setHeader (ascii "Upgrade") (ascii "websocket")).setHeader (ascii "Connection")
    (ascii "Upgrade")).setHeader (ascii "Sec-WebSocket-Accept") (acceptValue sha1sum key)

/-- `WSSession::handleShake`; `none` is `nullptr`.  `sha1sum` comes from a library. -/
def handleShake (sha1sum : Bytes → Bytes) (bufferSize : Nat) (s : Stream) :
    Option HttpRequest × Stream :=
  match recvRequest bufferSize s with
  | (none, s) => (none, s)
  | (some req, s) =>
    if ¬ caseEq (getHeader req.headers (ascii "Upgrade")) (ascii "websocket") then (none, s)
    else if ¬ caseEq (getHeader req.headers (ascii "Connection")) (ascii "Upgrade") then (none, s)
    else if getHeaderAsInt req.headers (ascii "Sec-webSocket-Version") ≠ 13 then (none, s)
    else if getHeader req.headers (ascii "Sec-WebSocket-Key") = [] then (none, s)
    else
      let req := { req with webSocket := true }
      (some req, (sendResponse (shakeResponse sha1sum req) s).2)

/-! ## What a request has to have -/

/-- The headers of a request for a WebSocket. -/
def AsksShake (headers : MapType) : Prop :=
  caseEq (getHeader headers (ascii "Upgrade")) (ascii "websocket") ∧
    caseEq (getHeader headers (ascii "Connection")) (ascii "Upgrade") ∧
    getHeaderAsInt headers (ascii "Sec-webSocket-Version") = 13 ∧
    getHeader headers (ascii "Sec-WebSocket-Key") ≠ []

instance (headers : MapType) : Decidable (AsksShake headers) :=
  inferInstanceAs (Decidable (_ ∧ _))

/-- A session that finds the bytes of the request in its first read, and nothing else, shakes hands
just when the request is a bodiless `GET` for a WebSocket: it returns the request and sends the
response, or returns nothing and sends nothing. -/
def ShakesHands (sha1sum : Bytes → Bytes) (bufferSize : Nat) (w : WireRequest) : Prop :=
  ∀ s : Stream, s.writable = true → (s.read bufferSize).1 = w.bytes →
    let r := handleShake sha1sum bufferSize s
    if w.method = .get ∧ w.body = [] ∧ AsksShake w.parsed.headers then
      ∃ (req : HttpRequest) (rsp : HttpResponse), r.1 = some req ∧
        { req with close := w.parsed.close, webSocket := false } = w.parsed ∧
        r.2.output = s.output ++ rsp.dump ∧ rsp.status = 101 ∧
        getHeader rsp.headers (ascii "Sec-WebSocket-Accept") =
          acceptValue sha1sum (getHeader w.parsed.headers (ascii "Sec-WebSocket-Key"))
    else r.1 = none ∧ r.2.output = s.output

section

variable {sha1sum : Bytes → Bytes} {bufferSize : Nat} {s : Stream}

theorem recvRequest_output : (recvRequest bufferSize s).2.output = s.output :=
  receive_output _ _ s

/-- **A request that misses one of the headers is refused**, whatever the bytes it has come from. -/
theorem handleShake_refuses
    (h : ∀ req, (recvRequest bufferSize s).1 = some req → ¬ AsksShake req.headers) :
    (handleShake sha1sum bufferSize s).1 = none ∧
      (handleShake sha1sum bufferSize s).2.output = s.output := by
  have hout : (recvRequest bufferSize s).2.output = s.output := recvRequest_output
  unfold handleShake
  split
  · next s' hrecv =>
    rw [hrecv] at hout
    exact ⟨rfl, hout⟩
  · next req s' hrecv =>
    rw [hrecv] at hout h
    have hnot := h req rfl
    split_ifs with hup hconn hversion hkey
    · exact ⟨rfl, hout⟩
    · exact ⟨rfl, hout⟩
    · exact absurd ⟨hup, hconn, not_not.mp hversion, hkey⟩ hnot
    · exact ⟨rfl, hout⟩
    · exact ⟨rfl, hout⟩

end

/-! ## What the parser has to say to it -/

/-- A header of the request that is not empty is one that was sent. -/
theorem exists_of_getHeader {w : WireRequest} {k : Bytes} (hk : ¬ caseEq k (ascii "content-length"))
    (hne : getHeader w.parsed.headers k ≠ []) :
    ∃ e ∈ w.headers, caseEq e.1 k ∧ e.2 = getHeader w.parsed.headers k := by
  unfold getHeader at hne ⊢
  cases hfind : w.parsed.headers.find k with
  | none =>
    rw [hfind] at hne
    exact absurd rfl hne
  | some v =>
    rcases OrderedMap.exists_of_find_foldl_assign hfind with ⟨e, he, hkey, rfl⟩ | hempty
    · rcases List.mem_append.mp he with he | he
      · exact ⟨e, he, hkey.symm, rfl⟩
      · -- the length of the body is under another name
        unfold lengthHeader at he
        split at he
        · exact absurd he List.not_mem_nil
        · rw [List.mem_singleton.mp he] at hkey
          exact absurd hkey hk
    · rw [OrderedMap.find_empty] at hempty
      exact absurd hempty.symm (Option.some_ne_none v)

theorem ne_nil_of_caseEq {a b : Bytes} (h : caseEq a b) (hb : caseKey b ≠ []) : a ≠ [] := by
  rintro rfl
  exact hb h.symm

theorem AsksShake.upgrades {w : WireRequest} (h : AsksShake w.parsed.headers) :
    AsksUpgrade w.headers ∧ ConnectionUpgrade w.headers := by
  obtain ⟨hup, hconn, -, -⟩ := h
  have hupgrade := ne_nil_of_caseEq hup (by decide)
  have hconnection := ne_nil_of_caseEq hconn (by decide)
  obtain ⟨e, he, hname, hvalue⟩ := exists_of_getHeader (by decide) hupgrade
  obtain ⟨e', he', hname', hvalue'⟩ := exists_of_getHeader (by decide) hconnection
  have hkey : caseKey (ascii "Upgrade") = caseKey (ascii "upgrade") := by decide
  have hkey' : caseKey (ascii "Connection") = caseKey (ascii "connection") := by decide
  constructor
  · refine ⟨e, he, hname.trans hkey, ?_⟩
    rw [hvalue]
    exact hupgrade
  · refine ⟨e', he', hname'.trans hkey', ?_⟩
    rw [hvalue']
    exact hconn.trans hkey

section

variable {sha1sum : Bytes → Bytes} {bufferSize : Nat} {w : WireRequest} (hw : w.WellFormed)
  (hfits : w.Fits) (hbuffer : w.bytes.length ≤ bufferSize)
include hw hfits

/-- What a session receives never asks for a WebSocket. -/
theorem recvRequest_not_asksShake {s : Stream} (hread : (s.read bufferSize).1 = w.bytes)
    (hbuffer : w.bytes.length ≤ bufferSize) {req : HttpRequest}
    (hrecv : (recvRequest bufferSize s).1 = some req) : ¬ AsksShake req.headers := by
  rw [recvRequest, receive_first hread w.bytes_ne_nil] at hrecv
  by_cases hvalues : ∀ e ∈ w.headers, Readable e.2
  · obtain ⟨n, p, filed, hcall, rfl, hup, -⟩ := WireRequest.execute_bytes hw hfits hvalues
    rw [hcall, List.drop_length] at hrecv
    dsimp only at hrecv
    -- to the session the flag of an upgrade is an error
    cases hflag : p.upgrade with
    | true =>
      rw [hflag, if_pos (by decide)] at hrecv
      exact absurd hrecv.symm (Option.some_ne_none req)
    | false =>
      have hroom : ([] : Bytes).length ≠ bufferSize := by
        have hpos := List.length_pos_iff.mpr w.bytes_ne_nil
        rw [List.length_nil]
        omega
      rw [hflag, if_neg (by decide), if_neg hroom, if_pos rfl] at hrecv
      have hreq : w.parsed.init = req := Option.some.inj hrecv
      have hheaders : req.headers = w.parsed.headers := by
        rw [← hreq, HttpRequest.init_headers]
      intro hasks
      rw [hheaders] at hasks
      obtain ⟨hupgrade, hconnection⟩ := hasks.upgrades
      rw [hup hupgrade hconnection] at hflag
      exact absurd hflag (by decide)
  · rw [if_pos (WireRequest.execute_unreadable hw hfits hvalues)] at hrecv
    exact absurd hrecv.symm (Option.some_ne_none req)

include hbuffer

/-- **The handshake never succeeds**: the session does as it should just with the requests that are
not for a WebSocket. -/
theorem shakesHands_iff :
    ShakesHands sha1sum bufferSize w ↔
      ¬ (w.method = .get ∧ w.body = [] ∧ AsksShake w.parsed.headers) := by
  have hrefused (s : Stream) (hread : (s.read bufferSize).1 = w.bytes) :
      (handleShake sha1sum bufferSize s).1 = none ∧
        (handleShake sha1sum bufferSize s).2.output = s.output :=
    handleShake_refuses fun req hrecv => recvRequest_not_asksShake hw hfits hread hbuffer hrecv
  constructor
  · intro h hasks
    have hread : (Stream.read { input := w.bytes } bufferSize).1 = w.bytes :=
      List.take_of_length_le hbuffer
    have hshake := h { input := w.bytes } rfl hread
    dsimp only at hshake
    rw [if_pos hasks] at hshake
    obtain ⟨req, -, hreq, -⟩ := hshake
    rw [(hrefused _ hread).1] at hreq
    exact Option.some_ne_none req hreq.symm
  · intro hasks s _ hread
    dsimp only
    rw [if_neg hasks]
    exact hrefused s hread

end

/-- A plain request is refused. -/
theorem shakesHands_plain :
    ShakesHands id 4096
      { method := .get, path := ascii "/", headers := [(ascii "Host", ascii "a")] } := by
  refine (shakesHands_iff ?_ ?_ (by decide +kernel)).mpr (by decide)
  · exact ⟨by decide, by decide, by decide, by decide, by decide, by decide⟩
  · exact ⟨by decide +kernel, ⟨by decide, fun h => absurd rfl h, fun h => absurd rfl h⟩, by decide⟩

/-- A request for a WebSocket, with the key `dGhlIHNhbXBsZSBub25jZQ==`. -/
def webSocketRequest : WireRequest where
  method := .get
  path := ascii "/chat"
  headers :=
    [(ascii "Host", ascii "a"), (ascii "Upgrade", ascii "websocket"),
      (ascii "Connection", ascii "Upgrade"), (ascii "Sec-WebSocket-Version", ascii "13"),
      (ascii "Sec-WebSocket-Key", ascii "dGhlIHNhbXBsZSBub25jZQ==")]

/-- The digest of that key and the identifier. -/
def sampleDigest : Bytes :=
  [0xb3, 0x7a, 0x4f, 0x2c, 0xc0, 0x62, 0x4f, 0x16, 0x90, 0xf6, 0x46, 0x06, 0xcf, 0x38, 0x59, 0x45,
    0xb2, 0xbe, 0xc4, 0xea]

example : base64encode sampleDigest = ascii "s3pPLMBiTxaQ9kYGzzhZRbK+xOo=" := by decide +kernel

/-- It is refused as well. -/
theorem webSocketRequest_refused :
    webSocketRequest.WellFormed ∧ webSocketRequest.Fits ∧ webSocketRequest.bytes.length ≤ 4096 ∧
      AsksShake webSocketRequest.parsed.headers ∧
      ¬ ShakesHands (fun _ => sampleDigest) 4096 webSocketRequest := by
  refine ⟨⟨by decide, by decide, by decide, by decide, by decide, by decide⟩,
    ⟨by decide +kernel, ⟨by decide, fun h => absurd rfl h, fun h => absurd rfl h⟩, by decide⟩,
    by decide +kernel, by decide +kernel, fun h => ?_⟩
  have hnone : (handleShake (fun _ => sampleDigest) 4096 { input := webSocketRequest.bytes }).1 =
      none := by decide +kernel
  have hshake := h { input := webSocketRequest.bytes } rfl (by decide +kernel)
  dsimp only at hshake
  rw [if_pos (by decide +kernel)] at hshake
  obtain ⟨req, -, hreq, -⟩ := hshake
  rw [hnone] at hreq
  exact Option.some_ne_none req hreq.symm

end Luwu.WebSocket
