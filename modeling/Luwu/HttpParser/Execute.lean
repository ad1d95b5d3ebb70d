import Luwu.HttpParser.Url
import Luwu.Lib.Interact

/-!
# The bundled http_parser: `http_parser_execute`

The loop of `http_parser_execute` over the bytes of a call.  A state of the loop is the parser and
the locals of the call: the mark of the span being read, with the bytes read since it was set, and
how far the inner loops of `s_header_field` and `s_header_value` have come.  Each byte makes one
turn; `REEXECUTE` is a call of the code of the new state on the same byte.

The C code has one mark pointer for each kind of span, and asserts that at most one of them is set;
here there is one mark, with its kind.  The inner loops count the bytes they pass only when they
end, so the count is a local as well.
-/

namespace Luwu.HttpParser

open Lib

/-- The kinds of spans reported by data callbacks. -/
inductive Span where
  | headerField | headerValue | url | body | status
deriving DecidableEq, Repr

/-- The callbacks of `http_parser_settings`, with the bytes given to the data callbacks. -/
inductive Callback where
  | messageBegin
  | data (span : Span) (buf : Bytes)
  | headersComplete
  | messageComplete
  | chunkHeader
  | chunkComplete
deriving DecidableEq, Repr

/-- A callback, with the parser as the callback sees it through its first argument. -/
abbrev Event := Callback × Parser

/-- The `HPE_CB_` error of a callback that fails. -/
def Callback.errno : Callback → Errno
  | .messageBegin => .cbMessageBegin
  | .data .headerField _ => .cbHeaderField
  | .data .headerValue _ => .cbHeaderValue
  | .data .url _ => .cbUrl
  | .data .body _ => .cbBody
  | .data .status _ => .cbStatus
  | .headersComplete => .cbHeadersComplete
  | .messageComplete => .cbMessageComplete
  | .chunkHeader => .cbChunkHeader
  | .chunkComplete => .cbChunkComplete

/-- The parser and the locals of a call of `http_parser_execute`. -/
structure Scan where
  parser : Parser
  /-- The mark that is set, and the bytes from the mark up to `p`. -/
  mark : Option (Span × Bytes) := none
  /-- `p - start` for the last byte that an inner loop has passed. -/
  passed : Option Nat := none
  /-- The bytes up to `pe` in the loop that skips over a general header value. -/
  skip : Option Nat := none
  /-- The call returns after the current byte, because another protocol follows. -/
  returned : Bool := false
deriving DecidableEq, Repr

/-- How an error leaves the loop: with the result `p - data` or `p - data + 1`. -/
inductive Exit where
  | here
  | after
deriving DecidableEq, Repr

abbrev M := InterM Event Int Exit Scan

def setParser (f : Parser → Parser) : M Unit := .modify fun s => { s with parser := f s.parser }

/-- `UPDATE_STATE`. -/
def updateState (st : State) : M Unit := setParser fun p => { p with state := st }

def setFlags (f : Flags → Flags) : M Unit := setParser fun p => { p with flags := f p.flags }

def setHeaderState (h : HeaderState) : M Unit := setParser fun p => { p with headerState := h }

/-- `RETURN ((p - data) + 1)`, the last thing done for a byte. -/
def returnAfter : M Unit := .modify fun s => { s with returned := true }

/-- `SET_ERRNO (e); goto error`. -/
def error (e : Errno) : M Unit := do
  setParser fun p => { p with errno := e }
  .exit .here

/-- `COUNT_HEADER_SIZE`. -/
def countHeaderSize (v : Nat) : M Unit := do
  setParser fun p => { p with nread := (p.nread + v) % 2 ^ 32 }
  if (← .gets fun s => s.parser.nread) > maxHeaderSize then error .headerOverflow else pure ()

/-- `STRICT_CHECK`, followed by the rest of the case. -/
def strictCheck (cond : Bool) (rest : M Unit) : M Unit := if cond then error .strict else rest

/-- `MARK`. -/
def setMark (span : Span) : M Unit := .modify fun s =>
  { s with mark := if s.mark.map Prod.fst = some span then s.mark else some (span, []) }

/-- The callback `cb`, with what `CALLBACK_NOTIFY_` and `CALLBACK_DATA_` do when it fails. -/
def callback (cb : Callback) (er : Exit) : M Unit := do
  let rc ← .ask fun s => (cb, s.parser)
  if rc ≠ 0 then
    setParser fun p => { p with errno := cb.errno }
    .exit er
  else pure ()

/-- `CALLBACK_NOTIFY`, which consumes the current byte. -/
def callbackNotify (cb : Callback) : M Unit := callback cb .after

/-- `CALLBACK_NOTIFY_NOADVANCE`. -/
def callbackNotifyNoadvance (cb : Callback) : M Unit := callback cb .here

/-- `CALLBACK_DATA_`: nothing happens when the mark is not set.  `more` are the bytes from `p` on
that belong to the span. -/
def callbackData (span : Span) (er : Exit) (more : Bytes) : M Unit := do
  match ← .gets fun s => s.mark with
  | some (span', bs) =>
    if span' = span then
      callback (.data span (bs ++ more)) er
      .modify fun s => { s with mark := none }
    else pure ()
  | none => pure ()

/-! ## Header fields -/

/-- One step of matching a header against `word`, whose index 0 has been matched before. -/
def matchWord (word : Bytes) (hit miss : HeaderState) (c : UInt8) (p : Parser) : Parser :=
  let p := { p with index := p.index + 1 }
  if p.index > word.length ∨ c ≠ word.getD p.index 0 then { p with headerState := miss }
  else if p.index = word.length - 1 then { p with headerState := hit }
  else p

/-- The switch on `header_state` for a character of a field name. -/
def fieldChar (ch c : UInt8) (p : Parser) : Parser :=
  match p.headerState with
  | .general => p
  | .C => { p with index := p.index + 1, headerState := if c = 'o'.toUInt8 then .CO else .general }
  | .CO =>
    { p with index := p.index + 1, headerState := if c = 'n'.toUInt8 then .CON else .general }
  | .CON =>
    { p with
      index := p.index + 1
      headerState :=
        if c = 'n'.toUInt8 then .matchingConnection
        else if c = 't'.toUInt8 then .matchingContentLength
        else .general }
  | .matchingConnection => matchWord (ascii "connection") .connection .general c p
  | .matchingProxyConnection => matchWord (ascii "proxy-connection") .connection .general c p
  | .matchingContentLength => matchWord (ascii "content-length") .contentLength .general c p
  | .matchingTransferEncoding =>
    matchWord (ascii "transfer-encoding") .transferEncoding .general c p
  | .matchingUpgrade => matchWord (ascii "upgrade") .upgrade .general c p
  | .connection | .contentLength | .transferEncoding | .upgrade =>
    if ch ≠ SP then { p with headerState := .general } else p
  | _ => p

/-- `p - start` for the current byte. -/
def Scan.offset (s : Scan) : Nat := match s.passed with
  | none => 0
  | some n => n + 1

/-- `s_header_field`. -/
def headerField (ch : UInt8) : M Unit := do
  let offset ← .gets Scan.offset
  let c := token ch
  if c ≠ 0 then
    setParser (fieldChar ch c)
    .modify fun s => { s with passed := some offset }
  else
    .modify fun s => { s with passed := none }
    countHeaderSize offset
    if ch = ':'.toUInt8 then
      updateState .headerValueDiscardWs
      callbackData .headerField .after []
    else error .invalidHeaderToken

/-! ## Header values -/

/-- The flag of a finished `Connection` or `Transfer-Encoding` value. -/
def finishValue (h : HeaderState) (f : Flags) : Flags :=
  match h with
  | .connectionKeepAlive => { f with connectionKeepAlive := true }
  | .connectionClose => { f with connectionClose := true }
  | .transferEncodingChunked => { f with chunked := true }
  | .connectionUpgrade => { f with connectionUpgrade := true }
  | _ => f

/-- The state for the first character `c` of a token of a `Connection` value; `other` for one that
starts none of the tokens looked for. -/
def connectionToken (c : UInt8) (other : HeaderState) : HeaderState :=
  if c = 'k'.toUInt8 then .matchingConnectionKeepAlive
  else if c = 'c'.toUInt8 then .matchingConnectionClose
  else if c = 'u'.toUInt8 then .matchingConnectionUpgrade
  else other

/-- `h_content_length_num`: one more digit of the length. -/
def contentLengthNum (ch : UInt8) : M Unit := do
  if ch = SP then setHeaderState .contentLengthWs
  else if !isNum ch then error .invalidContentLength
  else if (ullongMax - 10) / 10 < (← .gets fun s => s.parser.contentLength) then
    error .invalidContentLength
  else
    setParser fun p => { p with contentLength := p.contentLength * 10 + (ch.toNat - 48) }

/-- The switch on `h_state` for a character of a value. -/
def valueChar (ch : UInt8) : M Unit := do
  let c := lower ch
  match ← .gets fun s => s.parser.headerState with
  | .general => .modify fun s => { s with skip := some (s.skip.getD maxHeaderSize - 1) }
  | .connection | .transferEncoding => pure ()
  | .contentLength =>
    if ch = SP then pure ()
    else
      setHeaderState .contentLengthNum
      contentLengthNum ch
  | .contentLengthNum => contentLengthNum ch
  | .contentLengthWs => if ch = SP then pure () else error .invalidContentLength
  | .matchingTransferEncodingChunked =>
    setParser (matchWord (ascii "chunked") .transferEncodingChunked .general c)
  | .matchingConnectionTokenStart =>
    setHeaderState (connectionToken c
      (if token c ≠ 0 then .matchingConnectionToken
      else if c = SP ∨ c = HT then .matchingConnectionTokenStart
      else .general))
  | .matchingConnectionKeepAlive =>
    setParser (matchWord (ascii "keep-alive") .connectionKeepAlive .matchingConnectionToken c)
  | .matchingConnectionClose =>
    setParser (matchWord (ascii "close") .connectionClose .matchingConnectionToken c)
  | .matchingConnectionUpgrade =>
    setParser (matchWord (ascii "upgrade") .connectionUpgrade .matchingConnectionToken c)
  | .matchingConnectionToken =>
    if ch = ','.toUInt8 then
      setParser fun p => { p with headerState := .matchingConnectionTokenStart, index := 0 }
    else pure ()
  | .transferEncodingChunked => if ch ≠ SP then setHeaderState .general else pure ()
  | .connectionKeepAlive | .connectionClose | .connectionUpgrade =>
    if ch = ','.toUInt8 then
      setParser fun p =>
        { p with
          flags := finishValue p.headerState p.flags
          headerState := .matchingConnectionTokenStart
          index := 0 }
    else if ch ≠ SP then setHeaderState .matchingConnectionToken
    else pure ()
  | _ => setHeaderState .general

/-- `s_header_almost_done`. -/
def headerAlmostDone (ch : UInt8) : M Unit := do
  if ch ≠ LF then error .lfExpected else updateState .headerValueLws

/-- `s_header_value`. -/
def headerValue (ch : UInt8) : M Unit := do
  let s ← .gets id
  if s.skip = some 0 then
    -- the byte at `pe` is neither looked at in the inner loop nor by the one around it
    .modify fun s => { s with passed := some s.offset, skip := none }
  else if ch = CR then
    updateState .headerAlmostDone
    .modify fun s => { s with passed := none, skip := none }
    callbackData .headerValue .after []
    countHeaderSize s.offset
  else if ch = LF then
    updateState .headerAlmostDone
    .modify fun s => { s with passed := none, skip := none }
    countHeaderSize s.offset
    callbackData .headerValue .here []
    headerAlmostDone ch
  else if !s.parser.lenientHttpHeaders && !isHeaderChar ch then error .invalidHeaderToken
  else
    valueChar ch
    .modify fun s => { s with passed := some s.offset }

/-- `s_header_value_start`. -/
def headerValueStart (ch : UInt8) : M Unit := do
  setMark .headerValue
  updateState .headerValue
  setParser fun p => { p with index := 0 }
  let c := lower ch
  match ← .gets fun s => s.parser.headerState with
  | .upgrade =>
    setFlags fun f => { f with upgrade := true }
    setHeaderState .general
  | .transferEncoding =>
    setHeaderState (if c = 'c'.toUInt8 then .matchingTransferEncodingChunked else .general)
  | .contentLength =>
    if !isNum ch then error .invalidContentLength
    else if ← .gets fun s => s.parser.flags.contentLength then error .unexpectedContentLength
    else
      setFlags fun f => { f with contentLength := true }
      setParser fun p =>
        { p with contentLength := ch.toNat - 48, headerState := .contentLengthNum }
  | .contentLengthWs => pure ()
  | .connection => setHeaderState (connectionToken c .matchingConnectionToken)
  | .matchingConnectionTokenStart => pure ()
  | _ => setHeaderState .general

/-- `s_header_value_discard_ws`, which falls through to `s_header_value_start`. -/
def headerValueDiscardWs (ch : UInt8) : M Unit := do
  if ch = SP ∨ ch = HT then pure ()
  else if ch = CR then updateState .headerValueDiscardWsAlmostDone
  else if ch = LF then updateState .headerValueDiscardLws
  else headerValueStart ch

/-! ## The end of the headers -/

/-- `s_headers_done`. -/
def headersDone (ch : UInt8) : M Unit := strictCheck (ch ≠ LF) do
  setParser fun p => { p with nread := 0 }
  let p ← .gets Scan.parser
  let hasBody : Bool := p.flags.chunked || (p.contentLength > 0 && p.contentLength ≠ ullongMax)
  if p.upgrade ∧ (p.method = .connect ∨ p.flags.skipBody ∨ !hasBody) then
    updateState p.newMessage
    callbackNotify .messageComplete
    returnAfter
  else if p.flags.skipBody then
    updateState p.newMessage
    callbackNotify .messageComplete
  else if p.flags.chunked then updateState .chunkSizeStart
  else if p.contentLength = 0 then
    updateState p.newMessage
    callbackNotify .messageComplete
  else if p.contentLength ≠ ullongMax then updateState .bodyIdentity
  else if !p.messageNeedsEof then
    updateState p.newMessage
    callbackNotify .messageComplete
  else updateState .bodyIdentityEof

/-- `s_message_done`. -/
def messageDone : M Unit := do
  updateState (← .gets fun s => s.parser.newMessage)
  callbackNotify .messageComplete
  if ← .gets fun s => s.parser.upgrade then returnAfter else pure ()

/-- `s_headers_almost_done`. -/
def headersAlmostDone (ch : UInt8) : M Unit := strictCheck (ch ≠ LF) do
  let p ← .gets Scan.parser
  if p.flags.trailing then
    updateState .messageDone
    callbackNotifyNoadvance .chunkComplete
    messageDone
  else if p.flags.chunked ∧ p.flags.contentLength then error .unexpectedContentLength
  else
    updateState .headersDone
    setParser fun p =>
      { p with
        upgrade :=
          if p.flags.upgrade ∧ p.flags.connectionUpgrade then
            p.type = .request ∨ p.statusCode = 101
          else p.method = .connect }
    -- the answer 1 means that the message has no body, 2 that nothing of HTTP follows either
    let rc ← .ask fun s => (.headersComplete, s.parser)
    if rc = 0 then headersDone ch
    else if rc = 1 then
      setFlags fun f => { f with skipBody := true }
      headersDone ch
    else if rc = 2 then
      setParser fun p => { p with upgrade := true }
      setFlags fun f => { f with skipBody := true }
      headersDone ch
    else error .cbHeadersComplete

/-- `s_header_field_start`. -/
def headerFieldStart (ch : UInt8) : M Unit := do
  if ch = CR then updateState .headersAlmostDone
  else if ch = LF then
    updateState .headersAlmostDone
    headersAlmostDone ch
  else
    let c := token ch
    if c = 0 then error .invalidHeaderToken
    else
      setMark .headerField
      setParser fun p =>
        { p with
          index := 0
          state := .headerField
          headerState :=
            if c = 'c'.toUInt8 then .C
            else if c = 'p'.toUInt8 then .matchingProxyConnection
            else if c = 't'.toUInt8 then .matchingTransferEncoding
            else if c = 'u'.toUInt8 then .matchingUpgrade
            else .general }

/-- `s_header_value_lws`. -/
def headerValueLws (ch : UInt8) : M Unit := do
  if ch = SP ∨ ch = HT then
    -- line folding counts as a blank
    setParser fun p =>
      { p with
        headerState :=
          if p.headerState = .contentLengthNum then .contentLengthWs else p.headerState }
    updateState .headerValueStart
    headerValueStart ch
  else
    setParser fun p => { p with flags := finishValue p.headerState p.flags }
    updateState .headerFieldStart
    headerFieldStart ch

/-- `s_header_value_discard_lws`. -/
def headerValueDiscardLws (ch : UInt8) : M Unit := do
  if ch = SP ∨ ch = HT then updateState .headerValueDiscardWs
  else if (← .gets fun s => s.parser.headerState) = .contentLength then error .invalidContentLength
  else
    setParser fun p => { p with flags := finishValue p.headerState p.flags }
    -- the value was empty
    setMark .headerValue
    updateState .headerFieldStart
    callbackData .headerValue .here []
    headerFieldStart ch

/-! ## Start lines -/

/-- The switch on the first letter of a method. -/
def firstMethod (ch : UInt8) : Option Method :=
  if ch = 'A'.toUInt8 then some .acl
  else if ch = 'B'.toUInt8 then some .bind
  else if ch = 'C'.toUInt8 then some .connect
  else if ch = 'D'.toUInt8 then some .delete
  else if ch = 'G'.toUInt8 then some .get
  else if ch = 'H'.toUInt8 then some .head
  else if ch = 'L'.toUInt8 then some .lock
  else if ch = 'M'.toUInt8 then some .mkcol
  else if ch = 'N'.toUInt8 then some .notify
  else if ch = 'O'.toUInt8 then some .options
  else if ch = 'P'.toUInt8 then some .post
  else if ch = 'R'.toUInt8 then some .report
  else if ch = 'S'.toUInt8 then some .subscribe
  else if ch = 'T'.toUInt8 then some .trace
  else if ch = 'U'.toUInt8 then some .unlock
  else none

/-- The switch on method, index and character: another method that begins in the same way. -/
def otherMethod (m : Method) (index : Nat) (ch : UInt8) : Option Method :=
  match m, index with
  | .post, 1 =>
    if ch = 'U'.toUInt8 then some .put
    else if ch = 'A'.toUInt8 then some .patch
    else if ch = 'R'.toUInt8 then some .propfind
    else none
  | .put, 2 => if ch = 'R'.toUInt8 then some .purge else none
  | .connect, 1 => if ch = 'H'.toUInt8 then some .checkout else none
  | .connect, 2 => if ch = 'P'.toUInt8 then some .copy else none
  | .mkcol, 1 =>
    if ch = 'O'.toUInt8 then some .move
    else if ch = 'E'.toUInt8 then some .merge
    else if ch = '-'.toUInt8 then some .msearch
    else none
  | .mkcol, 2 => if ch = 'A'.toUInt8 then some .mkactivity else none
  | .mkcol, 3 => if ch = 'A'.toUInt8 then some .mkcalendar else none
  | .subscribe, 1 =>
    if ch = 'E'.toUInt8 then some .search
    else if ch = 'O'.toUInt8 then some .source
    else none
  | .report, 2 => if ch = 'B'.toUInt8 then some .rebind else none
  | .propfind, 4 => if ch = 'P'.toUInt8 then some .proppatch else none
  | .lock, 1 => if ch = 'I'.toUInt8 then some .link else none
  | .unlock, 2 =>
    if ch = 'S'.toUInt8 then some .unsubscribe
    else if ch = 'B'.toUInt8 then some .unbind
    else none
  | .unlock, 3 => if ch = 'I'.toUInt8 then some .unlink else none
  | _, _ => none

/-- A new message: `flags = 0; content_length = ULLONG_MAX`. -/
def resetMessage : M Unit := setParser fun p => { p with flags := {}, contentLength := ullongMax }

/-- `s_start_req`. -/
def startReq (ch : UInt8) : M Unit := do
  if ch = CR ∨ ch = LF then pure ()
  else
    resetMessage
    if !isAlpha ch then error .invalidMethod
    else
      setParser fun p => { p with method := .delete, index := 1 }
      match firstMethod ch with
      | none => error .invalidMethod
      | some m =>
        setParser fun p => { p with method := m, state := .reqMethod }
        callbackNotify .messageBegin

/-- `s_start_req_or_res`. -/
def startReqOrRes (ch : UInt8) : M Unit := do
  if ch = CR ∨ ch = LF then pure ()
  else
    resetMessage
    if ch = 'H'.toUInt8 then
      updateState .resOrRespH
      callbackNotify .messageBegin
    else
      setParser fun p => { p with type := .request, state := .startReq }
      startReq ch

/-- `s_res_or_resp_H`. -/
def resOrRespH (ch : UInt8) : M Unit := do
  if ch = 'T'.toUInt8 then setParser fun p => { p with type := .response, state := .resHT }
  else if ch ≠ 'E'.toUInt8 then error .invalidConstant
  else
    setParser fun p =>
      { p with type := .request, method := .head, index := 2, state := .reqMethod }

/-- `s_start_res`. -/
def startRes (ch : UInt8) : M Unit := do
  if ch = CR ∨ ch = LF then pure ()
  else
    resetMessage
    if ch = 'H'.toUInt8 then
      updateState .resH
      callbackNotify .messageBegin
    else error .invalidConstant

/-- The states that expect one character of `HTTP/`, as `STRICT_CHECK` has them. -/
def expectChar (want : Char) (st : State) (ch : UInt8) : M Unit :=
  strictCheck (ch ≠ want.toUInt8) (updateState st)

/-- `s_res_http_major` and `s_req_http_major`. -/
def httpMajor (st : State) (ch : UInt8) : M Unit := do
  if !isNum ch then error .invalidVersion
  else setParser fun p => { p with httpMajor := ch.toNat - 48, state := st }

/-- `s_res_http_dot` and `s_req_http_dot`. -/
def httpDot (st : State) (ch : UInt8) : M Unit := do
  if ch ≠ '.'.toUInt8 then error .invalidVersion else updateState st

/-- `s_res_http_minor` and `s_req_http_minor`. -/
def httpMinor (st : State) (ch : UInt8) : M Unit := do
  if !isNum ch then error .invalidVersion
  else setParser fun p => { p with httpMinor := ch.toNat - 48, state := st }

/-- `s_res_http_end`. -/
def resHttpEnd (ch : UInt8) : M Unit := do
  if ch ≠ SP then error .invalidVersion else updateState .resFirstStatusCode

/-- `s_res_first_status_code`. -/
def resFirstStatusCode (ch : UInt8) : M Unit := do
  if !isNum ch then
    if ch = SP then pure () else error .invalidStatus
  else setParser fun p => { p with statusCode := ch.toNat - 48, state := .resStatusCode }

/-- `s_res_status`. -/
def resStatus (ch : UInt8) : M Unit := do
  if ch = CR then
    updateState .resLineAlmostDone
    callbackData .status .after []
  else if ch = LF then
    updateState .headerFieldStart
    callbackData .status .after []
  else pure ()

/-- `s_res_status_start`. -/
def resStatusStart (ch : UInt8) : M Unit := do
  setMark .status
  setParser fun p => { p with state := .resStatus, index := 0 }
  if ch = CR ∨ ch = LF then resStatus ch else pure ()

/-- `s_res_status_code`. -/
def resStatusCode (ch : UInt8) : M Unit := do
  if !isNum ch then
    if ch = SP then updateState .resStatusStart
    else if ch = CR ∨ ch = LF then
      updateState .resStatusStart
      resStatusStart ch
    else error .invalidStatus
  else
    setParser fun p => { p with statusCode := p.statusCode * 10 + (ch.toNat - 48) }
    if (← .gets fun s => s.parser.statusCode) > 999 then error .invalidStatus else pure ()

/-- `s_req_method`. -/
def reqMethod (ch : UInt8) : M Unit := do
  let p ← .gets Scan.parser
  let next := p.method.string.getD p.index 0
  if ch = 0 then error .invalidMethod
  else if ch = SP ∧ next = 0 then
    setParser fun p => { p with state := .reqSpacesBeforeUrl, index := p.index + 1 }
  else if ch = next then setParser fun p => { p with index := p.index + 1 }
  else if ('A'.toUInt8 ≤ ch ∧ ch ≤ 'Z'.toUInt8) ∨ ch = '-'.toUInt8 then
    match otherMethod p.method p.index ch with
    | none => error .invalidMethod
    | some m => setParser fun p => { p with method := m, index := p.index + 1 }
  else error .invalidMethod

/-- A character of the URL, `HPE_INVALID_URL` when `parse_url_char` does not take it. -/
def urlChar (ch : UInt8) : M Unit := do
  updateState (parseUrlChar (← .gets fun s => s.parser.state) ch)
  if (← .gets fun s => s.parser.state) = .dead then error .invalidUrl else pure ()

/-- `s_req_spaces_before_url`. -/
def reqSpacesBeforeUrl (ch : UInt8) : M Unit := do
  if ch = SP then pure ()
  else
    setMark .url
    setParser fun p => { p with state := if p.method = .connect then .reqServerStart else p.state }
    urlChar ch

/-- `s_req_schema` up to `s_req_server_start`, where the URL cannot end. -/
def reqUrlStart (ch : UInt8) : M Unit := do
  if ch = SP ∨ ch = CR ∨ ch = LF then error .invalidUrl else urlChar ch

/-- `s_req_server` up to `s_req_fragment`. -/
def reqUrl (ch : UInt8) : M Unit := do
  if ch = SP then
    updateState .reqHttpStart
    callbackData .url .after []
  else if ch = CR ∨ ch = LF then
    setParser fun p =>
      { p with
        httpMajor := 0
        httpMinor := 9
        state := if ch = CR then .reqLineAlmostDone else .headerFieldStart }
    callbackData .url .after []
  else urlChar ch

/-- `s_req_http_start`. -/
def reqHttpStart (ch : UInt8) : M Unit := do
  if ch = SP then pure ()
  else if ch = 'H'.toUInt8 then updateState .reqHttpH
  else if ch = 'I'.toUInt8 ∧ (← .gets fun s => s.parser.method) = .source then
    updateState .reqHttpI
  else error .invalidConstant

/-- `s_req_http_end`. -/
def reqHttpEnd (ch : UInt8) : M Unit := do
  if ch = CR then updateState .reqLineAlmostDone
  else if ch = LF then updateState .headerFieldStart
  else error .invalidVersion

/-- `s_req_line_almost_done`. -/
def reqLineAlmostDone (ch : UInt8) : M Unit := do
  if ch ≠ LF then error .lfExpected else updateState .headerFieldStart

/-! ## Bodies -/

/-- `s_body_identity`, one byte of it. -/
def bodyIdentity (ch : UInt8) : M Unit := do
  setMark .body
  setParser fun p => { p with contentLength := p.contentLength - 1 }
  if (← .gets fun s => s.parser.contentLength) = 0 then
    updateState .messageDone
    callbackData .body .here [ch]
    messageDone
  else pure ()

/-- `s_chunk_size_start`. -/
def chunkSizeStart (ch : UInt8) : M Unit := do
  match unhex ch with
  | none => error .invalidChunkSize
  | some v => setParser fun p => { p with contentLength := v, state := .chunkSize }

/-- `s_chunk_size`. -/
def chunkSize (ch : UInt8) : M Unit := do
  if ch = CR then updateState .chunkSizeAlmostDone
  else match unhex ch with
    | none =>
      if ch = ';'.toUInt8 ∨ ch = SP then updateState .chunkParameters else error .invalidChunkSize
    | some v =>
      if (ullongMax - 16) / 16 < (← .gets fun s => s.parser.contentLength) then
        error .invalidContentLength
      else setParser fun p => { p with contentLength := p.contentLength * 16 + v }

/-- `s_chunk_parameters`. -/
def chunkParameters (ch : UInt8) : M Unit := do
  if ch = CR then updateState .chunkSizeAlmostDone else pure ()

/-- `s_chunk_size_almost_done`. -/
def chunkSizeAlmostDone (ch : UInt8) : M Unit := strictCheck (ch ≠ LF) do
  setParser fun p => { p with nread := 0 }
  if (← .gets fun s => s.parser.contentLength) = 0 then
    setFlags fun f => { f with trailing := true }
    updateState .headerFieldStart
  else updateState .chunkData
  callbackNotify .chunkHeader

/-- `s_chunk_data`, one byte of it. -/
def chunkData : M Unit := do
  setMark .body
  setParser fun p => { p with contentLength := p.contentLength - 1 }
  if (← .gets fun s => s.parser.contentLength) = 0 then updateState .chunkDataAlmostDone
  else pure ()

/-- `s_chunk_data_almost_done`. -/
def chunkDataAlmostDone (ch : UInt8) : M Unit := strictCheck (ch ≠ CR) do
  updateState .chunkDataDone
  callbackData .body .after []

/-- `s_chunk_data_done`. -/
def chunkDataDone (ch : UInt8) : M Unit := strictCheck (ch ≠ LF) do
  setParser fun p => { p with nread := 0, state := .chunkSizeStart }
  callbackNotify .chunkComplete

/-! ## The loop -/

/-- The switch on the state. -/
def dispatch (st : State) (ch : UInt8) : M Unit :=
  match st with
  | .dead => if ch = CR ∨ ch = LF then pure () else error .closedConnection
  | .startReqOrRes => startReqOrRes ch
  | .resOrRespH => resOrRespH ch
  | .startRes => startRes ch
  | .resH => expectChar 'T' .resHT ch
  | .resHT => expectChar 'T' .resHTT ch
  | .resHTT => expectChar 'P' .resHTTP ch
  | .resHTTP => expectChar '/' .resHttpMajor ch
  | .resHttpMajor => httpMajor .resHttpDot ch
  | .resHttpDot => httpDot .resHttpMinor ch
  | .resHttpMinor => httpMinor .resHttpEnd ch
  | .resHttpEnd => resHttpEnd ch
  | .resFirstStatusCode => resFirstStatusCode ch
  | .resStatusCode => resStatusCode ch
  | .resStatusStart => resStatusStart ch
  | .resStatus => resStatus ch
  | .resLineAlmostDone => strictCheck (ch ≠ LF) (updateState .headerFieldStart)
  | .startReq => startReq ch
  | .reqMethod => reqMethod ch
  | .reqSpacesBeforeUrl => reqSpacesBeforeUrl ch
  | .reqSchema | .reqSchemaSlash | .reqSchemaSlashSlash | .reqServerStart => reqUrlStart ch
  | .reqServer | .reqServerWithAt | .reqPath | .reqQueryStringStart | .reqQueryString
  | .reqFragmentStart | .reqFragment => reqUrl ch
  | .reqHttpStart => reqHttpStart ch
  | .reqHttpH => expectChar 'T' .reqHttpHT ch
  | .reqHttpHT => expectChar 'T' .reqHttpHTT ch
  | .reqHttpHTT => expectChar 'P' .reqHttpHTTP ch
  | .reqHttpI => expectChar 'C' .reqHttpIC ch
  | .reqHttpIC => expectChar 'E' .reqHttpHTTP ch
  | .reqHttpHTTP => expectChar '/' .reqHttpMajor ch
  | .reqHttpMajor => httpMajor .reqHttpDot ch
  | .reqHttpDot => httpDot .reqHttpMinor ch
  | .reqHttpMinor => httpMinor .reqHttpEnd ch
  | .reqHttpEnd => reqHttpEnd ch
  | .reqLineAlmostDone => reqLineAlmostDone ch
  | .headerFieldStart => headerFieldStart ch
  | .headerField => headerField ch
  | .headerValueDiscardWs => headerValueDiscardWs ch
  | .headerValueDiscardWsAlmostDone => strictCheck (ch ≠ LF) (updateState .headerValueDiscardLws)
  | .headerValueDiscardLws => headerValueDiscardLws ch
  | .headerValueStart => headerValueStart ch
  | .headerValue => headerValue ch
  | .headerValueLws => headerValueLws ch
  | .headerAlmostDone => headerAlmostDone ch
  | .chunkSizeStart => chunkSizeStart ch
  | .chunkSize => chunkSize ch
  | .chunkParameters => chunkParameters ch
  | .chunkSizeAlmostDone => chunkSizeAlmostDone ch
  | .headersAlmostDone => headersAlmostDone ch
  | .headersDone => headersDone ch
  | .chunkData => chunkData
  | .chunkDataAlmostDone => chunkDataAlmostDone ch
  | .chunkDataDone => chunkDataDone ch
  | .bodyIdentity => bodyIdentity ch
  | .bodyIdentityEof => setMark .body
  | .messageDone => messageDone

/-- One byte: the outer loop counts it, unless an inner loop has reached it. -/
def turn (ch : UInt8) : M Unit := do
  let s ← .gets id
  if s.parser.state.parsingHeader ∧ s.passed = none then countHeaderSize 1 else pure ()
  dispatch s.parser.state ch

/-- `p++`: the span that the mark opens now reaches over the byte. -/
def Scan.advance (ch : UInt8) (s : Scan) : Scan :=
  { s with mark := s.mark.map fun m => (m.1, m.2 ++ [ch]) }

/-- How `http_parser_execute` returns early, with the number of bytes it has not parsed: by an
error, or because another protocol follows. -/
inductive Stop where
  | failed (left : Nat)
  | returned (left : Nat)
deriving DecidableEq, Repr

def Stop.left : Stop → Nat
  | .failed n => n
  | .returned n => n

/-- The bytes not parsed when an error leaves the loop at a byte that `rest` follows. -/
def Exit.stop (rest : Bytes) : Exit → Stop
  | .here => .failed (rest.length + 1)
  | .after => .failed rest.length

/-- The loop. -/
def scan : Bytes → InterM Event Int Stop Scan Unit
  | [] => pure ()
  | ch :: rest => do
    (turn ch).mapExit (Exit.stop rest)
    .modify (Scan.advance ch)
    if ← .gets Scan.returned then .exit (.returned rest.length) else scan rest

/-- The span that goes on in a new call: the mark set before the loop. -/
def State.reopens : State → Option Span
  | .headerField => some .headerField
  | .headerValue => some .headerValue
  | .reqPath | .reqSchema | .reqSchemaSlash | .reqSchemaSlashSlash | .reqServerStart | .reqServer
  | .reqServerWithAt | .reqQueryStringStart | .reqQueryString | .reqFragmentStart
  | .reqFragment => some .url
  | .resStatus => some .status
  | _ => none

/-- The locals at the start of a call. -/
def Scan.enter (p : Parser) : Scan := { parser := p, mark := p.state.reopens.map fun k => (k, []) }

/-- What is left to do when the bytes run out: the count of an inner loop, whose byte `--p` gives
back, and the callback of the mark that is still set. -/
def finish : InterM Event Int Stop Scan Unit := do
  match ← .gets Scan.passed with
  | some n => (countHeaderSize n).mapExit fun _ => .failed 1
  | none => pure ()
  match ← .gets Scan.mark with
  | some (span, _) => (callbackData span .here []).mapExit fun _ => .failed 0
  | none => pure ()

/-- A call with `len == 0`, which says that the stream has ended; an exit carries the value
returned. -/
def executeEof : InterM Event Int Nat Scan Unit := do
  match ← .gets fun s => s.parser.state with
  | .bodyIdentityEof => (callbackNotifyNoadvance .messageComplete).mapExit fun _ => 0
  | .dead | .startReqOrRes | .startRes | .startReq => pure ()
  | _ => (error .invalidEofState).mapExit fun _ => 1

/-- The loop and what follows it. -/
def executeBody (data : Bytes) : InterM Event Int Stop Scan Unit := do
  scan data
  finish

/-- `http_parser_execute`, with the callbacks handled by `h`: the number of bytes parsed, the parser
and the owner's data. -/
def execute {τ : Type} (h : Event → τ → Int × τ) (p : Parser) (data : Bytes) (t : τ) :
    Nat × Parser × τ :=
  if p.errno ≠ .ok then (0, p, t)
  else if data = [] then
    match (executeEof (Scan.enter p)).run h t with
    | (.ok (_, s), t) => (0, s.parser, t)
    | (.error (n, s), t) => (n, s.parser, t)
  else
    match (executeBody data (Scan.enter p)).run h t with
    | (.ok (_, s), t) => (data.length, s.parser, t)
    | (.error (stop, s), t) => (data.length - stop.left, s.parser, t)

end Luwu.HttpParser
