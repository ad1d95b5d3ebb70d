import Luwu.Lib.Bytes

/-!
# The bundled http_parser: types and character classes

The enumerations, the `http_parser` record and the character classes of `http_parser.h` and
`http_parser.c`, as compiled by default (`HTTP_PARSER_STRICT` is 1).  Characters are bytes; the
comparisons of the C code are with ASCII characters only, so the sign of `char` does not matter.
-/

namespace Luwu

namespace HttpParser

/-- `HTTP_MAX_HEADER_SIZE`; nobody calls `http_parser_set_max_header_size`. -/
def maxHeaderSize : Nat := 80 * 1024

/-- `ULLONG_MAX`, the `content_length` of a message that gives none. -/
def ullongMax : Nat := 2 ^ 64 - 1

/-- `enum state`. -/
inductive State where
  | dead
  | startReqOrRes | resOrRespH
  | startRes | resH | resHT | resHTT | resHTTP
  | resHttpMajor | resHttpDot | resHttpMinor | resHttpEnd
  | resFirstStatusCode | resStatusCode | resStatusStart | resStatus | resLineAlmostDone
  | startReq | reqMethod | reqSpacesBeforeUrl
  | reqSchema | reqSchemaSlash | reqSchemaSlashSlash | reqServerStart | reqServer
  | reqServerWithAt | reqPath | reqQueryStringStart | reqQueryString | reqFragmentStart
  | reqFragment
  | reqHttpStart | reqHttpH | reqHttpHT | reqHttpHTT | reqHttpHTTP | reqHttpI | reqHttpIC
  | reqHttpMajor | reqHttpDot | reqHttpMinor | reqHttpEnd | reqLineAlmostDone
  | headerFieldStart | headerField
  | headerValueDiscardWs | headerValueDiscardWsAlmostDone | headerValueDiscardLws
  | headerValueStart | headerValue | headerValueLws | headerAlmostDone
  | chunkSizeStart | chunkSize | chunkParameters | chunkSizeAlmostDone
  | headersAlmostDone | headersDone
  | chunkData | chunkDataAlmostDone | chunkDataDone
  | bodyIdentity | bodyIdentityEof
  | messageDone
deriving DecidableEq, Repr

/-- `PARSING_HEADER`: the states up to `s_headers_done`. -/
def State.parsingHeader : State → Bool
  | .chunkData | .chunkDataAlmostDone | .chunkDataDone => false
  | .bodyIdentity | .bodyIdentityEof | .messageDone => false
  | _ => true

/-- `enum header_states`. -/
inductive HeaderState where
  | general | C | CO | CON
  | matchingConnection | matchingProxyConnection | matchingContentLength
  | matchingTransferEncoding | matchingUpgrade
  | connection | contentLength | contentLengthNum | contentLengthWs | transferEncoding | upgrade
  | matchingTransferEncodingChunked
  | matchingConnectionTokenStart | matchingConnectionKeepAlive | matchingConnectionClose
  | matchingConnectionUpgrade | matchingConnectionToken
  | transferEncodingChunked | connectionKeepAlive | connectionClose | connectionUpgrade
deriving DecidableEq, Repr

/-- `enum http_method`, in the order of its numbers. -/
inductive Method where
  | delete | get | head | post | put
  | connect | options | trace
  | copy | lock | mkcol | move | propfind | proppatch | search | unlock | bind | rebind | unbind
  | acl
  | report | mkactivity | checkout | merge
  | msearch | notify | subscribe | unsubscribe
  | patch | purge
  | mkcalendar
  | link | unlink
  | source
deriving DecidableEq, Repr

/-- `method_strings`. -/
def Method.string : Method → Bytes
  | .delete => ascii "DELETE"
  | .get => ascii "GET"
  | .head => ascii "HEAD"
  | .post => ascii "POST"
  | .put => ascii "PUT"
  | .connect => ascii "CONNECT"
  | .options => ascii "OPTIONS"
  | .trace => ascii "TRACE"
  | .copy => ascii "COPY"
  | .lock => ascii "LOCK"
  | .mkcol => ascii "MKCOL"
  | .move => ascii "MOVE"
  | .propfind => ascii "PROPFIND"
  | .proppatch => ascii "PROPPATCH"
  | .search => ascii "SEARCH"
  | .unlock => ascii "UNLOCK"
  | .bind => ascii "BIND"
  | .rebind => ascii "REBIND"
  | .unbind => ascii "UNBIND"
  | .acl => ascii "ACL"
  | .report => ascii "REPORT"
  | .mkactivity => ascii "MKACTIVITY"
  | .checkout => ascii "CHECKOUT"
  | .merge => ascii "MERGE"
  | .msearch => ascii "M-SEARCH"
  | .notify => ascii "NOTIFY"
  | .subscribe => ascii "SUBSCRIBE"
  | .unsubscribe => ascii "UNSUBSCRIBE"
  | .patch => ascii "PATCH"
  | .purge => ascii "PURGE"
  | .mkcalendar => ascii "MKCALENDAR"
  | .link => ascii "LINK"
  | .unlink => ascii "UNLINK"
  | .source => ascii "SOURCE"

/-- `enum http_errno`. -/
inductive Errno where
  | ok
  | cbMessageBegin | cbUrl | cbHeaderField | cbHeaderValue | cbHeadersComplete | cbBody
  | cbMessageComplete | cbStatus | cbChunkHeader | cbChunkComplete
  | invalidEofState | headerOverflow | closedConnection | invalidVersion | invalidStatus
  | invalidMethod | invalidUrl | invalidHost | invalidPort | invalidPath | invalidQueryString
  | invalidFragment | lfExpected | invalidHeaderToken | invalidContentLength
  | unexpectedContentLength | invalidChunkSize | invalidConstant | invalidInternalState | strict
  | paused | unknown
deriving DecidableEq, Repr

/-- `enum http_parser_type`. -/
inductive ParserType where
  | request | response | both
deriving DecidableEq, Repr

/-- `enum flags`, one Boolean for each bit. -/
structure Flags where
  chunked : Bool := false
  connectionKeepAlive : Bool := false
  connectionClose : Bool := false
  connectionUpgrade : Bool := false
  trailing : Bool := false
  upgrade : Bool := false
  skipBody : Bool := false
  contentLength : Bool := false
deriving DecidableEq, Repr

/-- `struct http_parser`, less the owner's `data` pointer. -/
structure Parser where
  type : ParserType
  flags : Flags := {}
  state : State
  headerState : HeaderState := .general
  index : Nat := 0
  lenientHttpHeaders : Bool := false
  nread : Nat := 0
  contentLength : Nat := 0
  httpMajor : Nat := 0
  httpMinor : Nat := 0
  statusCode : Nat := 0
  method : Method := .delete
  errno : Errno := .ok
  upgrade : Bool := false
deriving DecidableEq, Repr

/-- `http_parser_init`. -/
def Parser.init (t : ParserType) : Parser :=
  { type := t
    state := match t with
      | .request => .startReq
      | .response => .startRes
      | .both => .startReqOrRes }

/-- `start_state`. -/
def Parser.startState (p : Parser) : State := if p.type = .request then .startReq else .startRes

/-- `http_message_needs_eof`. -/
def Parser.messageNeedsEof (p : Parser) : Bool :=
  if p.type = .request then false
  else if p.statusCode / 100 = 1 ∨ p.statusCode = 204 ∨ p.statusCode = 304 ∨ p.flags.skipBody then
    false
  else if p.flags.chunked ∨ p.contentLength ≠ ullongMax then false
  else true

/-- `http_should_keep_alive`. -/
def Parser.shouldKeepAlive (p : Parser) : Bool :=
  if p.httpMajor > 0 ∧ p.httpMinor > 0 then
    if p.flags.connectionClose then false else !p.messageNeedsEof
  else
    if !p.flags.connectionKeepAlive then false else !p.messageNeedsEof

/-- `NEW_MESSAGE`. -/
def Parser.newMessage (p : Parser) : State := if p.shouldKeepAlive then p.startState else .dead

/-! ## Character classes -/

def CR : UInt8 := 13
def LF : UInt8 := 10
/-- The blank and the horizontal tab. -/
def SP : UInt8 := 32
def HT : UInt8 := 9

def lower (c : UInt8) : UInt8 := c ||| 0x20

def isAlpha (c : UInt8) : Bool := 'a'.toUInt8 ≤ lower c && lower c ≤ 'z'.toUInt8

def isNum (c : UInt8) : Bool := '0'.toUInt8 ≤ c && c ≤ '9'.toUInt8

def isAlphanum (c : UInt8) : Bool := isAlpha c || isNum c

def isHex (c : UInt8) : Bool := isNum c || ('a'.toUInt8 ≤ lower c && lower c ≤ 'f'.toUInt8)

def isMark (c : UInt8) : Bool := (ascii "-_.!~*'()").contains c

def isUserinfoChar (c : UInt8) : Bool := isAlphanum c || isMark c || (ascii "%;:&=+$,").contains c

def isHostChar (c : UInt8) : Bool := isAlphanum c || c = '.'.toUInt8 || c = '-'.toUInt8

/-- `TOKEN`, which is `STRICT_TOKEN`: the characters of a token, letters in lower case, and 0 for
all others (the blank included, which the table `tokens` lets through). -/
def token (c : UInt8) : UInt8 :=
  if isAlpha c then lower c
  else if isNum c then c
  else if (ascii "!#$%&'*+-.^_`|~").contains c then c
  else 0

/-- `IS_URL_CHAR`: the bits of `normal_url_char`. -/
def isUrlChar (c : UInt8) : Bool := 33 ≤ c && c ≤ 126 && c ≠ '#'.toUInt8 && c ≠ '?'.toUInt8

/-- `IS_HEADER_CHAR`. -/
def isHeaderChar (c : UInt8) : Bool := c = CR || c = LF || c = 9 || (c > 31 && c ≠ 127)

/-- `unhex`, where `none` is -1.  The initialiser of the table stops at 127, so that the characters
above it count as the digit 0. -/
def unhex (c : UInt8) : Option Nat :=
  if isNum c then some (c.toNat - 48)
  else if 'a'.toUInt8 ≤ lower c && lower c ≤ 'f'.toUInt8 then some (lower c - 87).toNat
  else if c ≥ 128 then some 0
  else none

end HttpParser

end Luwu
