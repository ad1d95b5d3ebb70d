import Luwu.Http.Message
import Luwu.HttpParser.Cut

/-!
# The parsers of requests and responses

`HttpRequestParser` and `HttpResponseParser`: an `http_parser` and the callbacks that put a message
together.  The two have the same shape; they differ in what the callbacks do with the message
(`Callbacks`), and in the upgrade flag, which only the request parser looks at.
-/

namespace Luwu.Http

open Lib HttpParser

/-- What the callbacks reach through `p->data`. -/
structure Owner (μ : Type) where
  data : μ
  filed : Bytes := []
  finished : Bool := false
deriving DecidableEq

/-- What the callbacks do with a message of type `μ`. -/
structure Callbacks (μ : Type) where
  /-- `none` when the callback fails. -/
  url : Bytes → μ → Option μ
  status : Parser → μ → μ
  setHeader : Bytes → Bytes → μ → μ
  headersComplete : Parser → μ → μ
  appendBody : Bytes → μ → μ

/-- The callbacks as `http_parser_settings` has them. -/
def Callbacks.handle {μ : Type} (c : Callbacks μ) : Event → Owner μ → Int × Owner μ
  | (.messageBegin, _), o => (0, o)
  | (.data .url buf, _), o => match c.url buf o.data with
    | none => (1, o)
    | some d => (0, { o with data := d })
  | (.data .status _, p), o => (0, { o with data := c.status p o.data })
  | (.data .headerField buf, _), o => (0, { o with filed := buf })
  | (.data .headerValue buf, _), o => (0, { o with data := c.setHeader o.filed buf o.data })
  | (.data .body buf, _), o => (0, { o with data := c.appendBody buf o.data })
  | (.headersComplete, p), o => (0, { o with data := c.headersComplete p o.data })
  | (.messageComplete, _), o => (0, { o with finished := true })
  | (.chunkHeader, _), o => (0, o)
  | (.chunkComplete, _), o => (0, o)

/-- `p->http_major << 4 | p->http_minor`, as a `uint8_t`. -/
def versionOf (p : Parser) : UInt8 := UInt8.ofNat (p.httpMajor <<< 4 ||| p.httpMinor)

/-- A field of the URL, where the URL has it. -/
def urlPart (u : Url) (buf : Bytes) (f : UrlField) (dflt : Bytes) : Bytes :=
  if u.fieldSet f then u.field buf f else dflt

/-- `on_request_url_cb`. -/
def onRequestUrl (buf : Bytes) (r : HttpRequest) : Option HttpRequest :=
  (parseUrl buf false).map fun u =>
    { r with
      path := urlPart u buf .path r.path
      query := urlPart u buf .query r.query
      fragment := urlPart u buf .fragment r.fragment }

/-- The callbacks of `httpParserSettings1`. -/
def requestCallbacks : Callbacks HttpRequest where
  url := onRequestUrl
  status := fun _ r => r
  setHeader := fun key val r => r.setHeader key val
  headersComplete := fun p r => { r with version := versionOf p, method := p.method }
  appendBody := fun body r => r.appendBody body

/-- The callbacks of `httpParserSettings2`. -/
def responseCallbacks : Callbacks HttpResponse where
  url := fun _ r => some r
  status := fun p r => { r with status := p.statusCode }
  setHeader := fun key val r => r.setHeader key val
  headersComplete := fun p r => { r with version := versionOf p, status := p.statusCode }
  appendBody := fun body r => r.appendBody body

/-- The state of a parser of messages of type `μ`. -/
@[ext]
structure MessageParser (μ : Type) where
  parser : Parser
  owner : Owner μ
  error : Errno := .ok
deriving DecidableEq

abbrev HttpRequestParser := MessageParser HttpRequest
abbrev HttpResponseParser := MessageParser HttpResponse

def HttpRequestParser.new : HttpRequestParser :=
  { parser := .init .request, owner := { data := {} } }

def HttpResponseParser.new : HttpResponseParser :=
  { parser := .init .response, owner := { data := {} } }

/-- `execute`: the number of bytes parsed, and the parser after it.  `checkUpgrade` says whether the
upgrade flag counts as an error. -/
def MessageParser.execute {μ : Type} (c : Callbacks μ) (checkUpgrade : Bool) (q : MessageParser μ)
    (data : Bytes) : Nat × MessageParser μ :=
  let e := HttpParser.execute c.handle q.parser data q.owner
  let p := e.2.1
  let error :=
    if checkUpgrade ∧ p.upgrade then Errno.unknown
    else if p.errno ≠ .ok then p.errno
    else q.error
  (e.1, { parser := p, owner := e.2.2, error })

def HttpRequestParser.execute (q : HttpRequestParser) (data : Bytes) : Nat × HttpRequestParser :=
  MessageParser.execute requestCallbacks true q data

def HttpResponseParser.execute (q : HttpResponseParser) (data : Bytes) :
    Nat × HttpResponseParser :=
  MessageParser.execute responseCallbacks false q data

/-! ## The callbacks and the parts of a message -/

variable {μ : Type} {c : Callbacks μ}

@[simp] theorem handle_messageBegin (p : Parser) (o : Owner μ) :
    c.handle (.messageBegin, p) o = (0, o) := rfl
@[simp] theorem handle_status (buf : Bytes) (p : Parser) (o : Owner μ) :
    c.handle (.data .status buf, p) o = (0, { o with data := c.status p o.data }) := rfl
@[simp] theorem handle_headerField (buf : Bytes) (p : Parser) (o : Owner μ) :
    c.handle (.data .headerField buf, p) o = (0, { o with filed := buf }) := rfl
@[simp] theorem handle_headerValue (buf : Bytes) (p : Parser) (o : Owner μ) :
    c.handle (.data .headerValue buf, p) o =
      (0, { o with data := c.setHeader o.filed buf o.data }) := rfl
@[simp] theorem handle_body (buf : Bytes) (p : Parser) (o : Owner μ) :
    c.handle (.data .body buf, p) o = (0, { o with data := c.appendBody buf o.data }) := rfl
@[simp] theorem handle_headersComplete (p : Parser) (o : Owner μ) :
    c.handle (.headersComplete, p) o = (0, { o with data := c.headersComplete p o.data }) := rfl
@[simp] theorem handle_messageComplete (p : Parser) (o : Owner μ) :
    c.handle (.messageComplete, p) o = (0, { o with finished := true }) := rfl

/-- Only a URL may be refused. -/
theorem handle_refuses {e : Event} {o : Owner μ} (h : (c.handle e o).1 ≠ 0) :
    ∃ buf, e.1 = .data .url buf := by
  obtain ⟨cb, p⟩ := e
  cases cb with
  | data span buf =>
    cases span with
    | url => exact ⟨buf, rfl⟩
    | _ => exact absurd rfl h
  | _ => exact absurd rfl h

theorem requestCallbacks_gathers : Gathers requestCallbacks.handle where
  refuses := fun _ _ h => handle_refuses h
  body_nil := fun p o => by
    simp [requestCallbacks, HttpRequest.appendBody]
  body_append := fun bs bs' p p' p'' o => by
    simp [requestCallbacks, HttpRequest.appendBody]
  status_again := fun bs bs' bs'' p p' o _ => rfl

theorem responseCallbacks_gathers : Gathers responseCallbacks.handle where
  refuses := fun _ _ h => handle_refuses h
  body_nil := fun p o => by
    simp [responseCallbacks, HttpResponse.appendBody]
  body_append := fun bs bs' p p' p'' o => by
    simp [responseCallbacks, HttpResponse.appendBody]
  status_again := fun bs bs' bs'' p p' o _ => rfl

end Luwu.Http
