import Luwu.HttpParser.Basic
import Luwu.Lib.OrderedMap
import Mathlib.Data.List.Lex
import Mathlib.Data.Nat.Basic

/-!
# HTTP messages

`HttpRequest` and `HttpResponse` with their header maps, and `dump`, which writes them out.  The
maps compare names with `strcasecmp` on their C strings.
-/

namespace Luwu.Http

open Lib HttpParser

/-! ## Names -/

def tolower (c : UInt8) : UInt8 := if 'A'.toUInt8 ≤ c ∧ c ≤ 'Z'.toUInt8 then c + 32 else c

/-- What `strcasecmp` compares of a string: its characters up to the first zero, in lower case. -/
def caseKey (s : Bytes) : List Nat := (s.takeWhile (· ≠ 0)).map fun c => (tolower c).toNat

def caseInsensitiveLess (lhs rhs : Bytes) : Prop := caseKey lhs < caseKey rhs

/-- `strcasecmp (a, b) == 0`. -/
def caseEq (a b : Bytes) : Prop := caseKey a = caseKey b

instance (a b : Bytes) : Decidable (caseEq a b) := inferInstanceAs (Decidable (_ = _))

/-- `std::map<std::string, std::string, CaseInsensitiveLess>`. -/
abbrev MapType := OrderedMap caseKey Bytes

/-! ## Methods and statuses -/

/-- `enum class HttpMethod`, which has the methods of `HTTP_METHOD_MAP`. -/
abbrev HttpMethod := Method

/-- The methods in the order of their numbers. -/
def methods : List HttpMethod :=
  [.delete, .get, .head, .post, .put, .connect, .options, .trace, .copy, .lock, .mkcol, .move,
    .propfind, .proppatch, .search, .unlock, .bind, .rebind, .unbind, .acl, .report, .mkactivity,
    .checkout, .merge, .msearch, .notify, .subscribe, .unsubscribe, .patch, .purge, .mkcalendar,
    .link, .unlink, .source]

def methodNumber (m : HttpMethod) : Nat := methods.idxOf m

def sMethod : List Bytes := methods.map Method.string

/-- `HttpMethodToString`.  `s_method->size ()` is the size of the first string of the array. -/
def httpMethodToString (m : HttpMethod) : Bytes :=
  let idx := methodNumber m
  if idx ≥ (sMethod.getD 0 []).length then ascii "<unknown>" else sMethod.getD idx []

def httpStatusMap : List (Nat × Bytes) :=
  [(100, ascii "Continue"), (101, ascii "Switching Protocols"), (102, ascii "Processing"),
    (200, ascii "OK"), (201, ascii "Created"), (202, ascii "Accepted"),
    (203, ascii "Non-Authoritative Information"), (204, ascii "No Content"),
    (205, ascii "Reset Content"), (206, ascii "Partial Content"), (207, ascii "Multi-Status"),
    (208, ascii "Already Reported"), (226, ascii "IM Used"), (300, ascii "Multiple Choices"),
    (301, ascii "Moved Permanently"), (302, ascii "Found"), (303, ascii "See Other"),
    (304, ascii "Not Modified"), (305, ascii "Use Proxy"), (307, ascii "Temporary Redirect"),
    (308, ascii "Permanent Redirect"), (400, ascii "Bad Request"), (401, ascii "Unauthorized"),
    (402, ascii "Payment Required"), (403, ascii "Forbidden"), (404, ascii "Not Found"),
    (405, ascii "Method Not Allowed"), (406, ascii "Not Acceptable"),
    (407, ascii "Proxy Authentication Required"), (408, ascii "Request Timeout"),
    (409, ascii "Conflict"), (410, ascii "Gone"), (411, ascii "Length Required"),
    (412, ascii "Precondition Failed"), (413, ascii "Payload Too Large"),
    (414, ascii "URI Too Long"), (415, ascii "Unsupported Media Type"),
    (416, ascii "Range Not Satisfiable"), (417, ascii "Expectation Failed"),
    (421, ascii "Misdirected Request"), (422, ascii "Unprocessable Entity"), (423, ascii "Locked"),
    (424, ascii "Failed Dependency"), (426, ascii "Upgrade Required"),
    (428, ascii "Precondition Required"), (429, ascii "Too Many Requests"),
    (431, ascii "Request Header Fields Too Large"), (451, ascii "Unavailable For Legal Reasons"),
    (500, ascii "Internal Server Error"), (501, ascii "Not Implemented"),
    (502, ascii "Bad Gateway"), (503, ascii "Service Unavailable"), (504, ascii "Gateway Timeout"),
    (505, ascii "HTTP Version Not Supported"), (506, ascii "Variant Also Negotiates"),
    (507, ascii "Insufficient Storage"), (508, ascii "Loop Detected"), (510, ascii "Not Extended"),
    (511, ascii "Network Authentication Required")]

def httpStatusToString (s : Nat) : Bytes :=
  match httpStatusMap.find? (·.1 = s) with
  | some (_, msg) => msg
  | none => ascii "<unknown>"

/-! ## Messages -/

structure HttpRequest where
  close : Bool := true
  webSocket : Bool := false
  status : UInt8 := 0
  method : HttpMethod := .get
  version : UInt8 := 0x11
  url : Bytes := []
  path : Bytes := ascii "/"
  query : Bytes := []
  fragment : Bytes := []
  body : Bytes := []
  headers : MapType := .empty
  params : MapType := .empty
  cookies : MapType := .empty
deriving DecidableEq

structure HttpResponse where
  status : Nat := 200
  version : UInt8 := 0x11
  close : Bool := true
  webSocket : Bool := false
  body : Bytes := []
  reason : Bytes := []
  headers : MapType := .empty
  cookies : List Bytes := []
deriving DecidableEq

/-- `getHeader (key)`, whose default is the empty string. -/
def getHeader (headers : MapType) (key : Bytes) : Bytes := (headers.find key).getD []

namespace HttpRequest

def setHeader (r : HttpRequest) (key val : Bytes) : HttpRequest :=
  { r with headers := r.headers.assign key val }

def appendBody (r : HttpRequest) (body : Bytes) : HttpRequest := { r with body := r.body ++ body }

def createResponse (r : HttpRequest) : HttpResponse := { version := r.version, close := r.close }

/-- `init`: whether the connection is to be closed. -/
def init (r : HttpRequest) : HttpRequest :=
  let conn := getHeader r.headers (ascii "connection")
  if conn = [] then r else { r with close := !decide (caseEq conn (ascii "keep-alive")) }

theorem init_headers (r : HttpRequest) : r.init.headers = r.headers := by
  unfold init
  simp only
  split <;> rfl

end HttpRequest

namespace HttpResponse

def setHeader (r : HttpResponse) (key val : Bytes) : HttpResponse :=
  { r with headers := r.headers.assign key val }

def appendBody (r : HttpResponse) (body : Bytes) : HttpResponse := { r with body := r.body ++ body }

end HttpResponse

/-! ## Writing -/

/-- A number as `operator<<` writes it. -/
def decimal (n : Nat) : Bytes :=
  if n < 10 then [UInt8.ofNat (48 + n)] else decimal (n / 10) ++ [UInt8.ofNat (48 + n % 10)]
termination_by n

def crlf : Bytes := [CR, LF]

def headerLine (e : Bytes × Bytes) : Bytes := e.1 ++ ascii ": " ++ e.2 ++ crlf

/-- `HTTP/` with the version. -/
def versionText (version : UInt8) : Bytes :=
  ascii "HTTP/" ++ decimal (version >>> 4).toNat ++ ascii "." ++ decimal (version &&& 0x0f).toNat

/-- What `dump` writes after the headers. -/
def bodyText (body : Bytes) : Bytes :=
  if body ≠ [] then headerLine (ascii "content-length", decimal body.length) ++ crlf ++ body
  else crlf

/-- The value that `dump` gives to the connection header. -/
def connectionText (close : Bool) : Bytes := if close then ascii "close" else ascii "keep-alive"

/-- The target of a request, as `dump` puts it together. -/
def target (path query fragment : Bytes) : Bytes :=
  path ++ (if query = [] then [] else ascii "?") ++ query ++
    (if fragment = [] then [] else ascii "#") ++ fragment

namespace HttpRequest

/-- The headers that `dump` writes. -/
def dumpHeaders (r : HttpRequest) : List (Bytes × Bytes) :=
  (if !r.webSocket then [(ascii "Connection", connectionText r.close)] else []) ++
    r.headers.entries.filter fun e =>
      !(!r.webSocket && decide (caseEq e.1 (ascii "Connection"))) &&
        !(decide (r.body ≠ []) && decide (caseEq e.1 (ascii "content-length")))

/-- `HttpRequest::dump`. -/
def dump (r : HttpRequest) : Bytes :=
  httpMethodToString r.method ++ ascii " " ++ target r.path r.query r.fragment ++ ascii " " ++
    versionText r.version ++ crlf ++ r.dumpHeaders.flatMap headerLine ++ bodyText r.body

end HttpRequest

namespace HttpResponse

/-- The headers that `dump` writes. -/
def dumpHeaders (r : HttpResponse) : List (Bytes × Bytes) :=
  (if !r.webSocket then [(ascii "connection", connectionText r.close)] else []) ++
    r.headers.entries.filter fun e =>
      !(!r.webSocket && decide (caseEq e.1 (ascii "connection")))

/-- `HttpResponse::dump`. -/
def dump (r : HttpResponse) : Bytes :=
  versionText r.version ++ ascii " " ++ decimal r.status ++ ascii " " ++
    (if r.reason = [] then httpStatusToString r.status else r.reason) ++ crlf ++
    r.dumpHeaders.flatMap headerLine ++ bodyText r.body

end HttpResponse

end Luwu.Http
