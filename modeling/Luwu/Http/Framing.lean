import Luwu.Http.Fields

/-!
# The end of a message

What follows the header lines: the empty line, and the body when a length has been given.  A request
without a length ends at the empty line; a response without one goes on to the end of the stream.
When another protocol follows, the call returns at the end of the message.
-/

namespace Luwu.Http

open Lib HttpParser Inter InterM

section

variable {μ : Type} (c : Callbacks μ)

/-- The bytes `d` end a message: the call goes on behind them, or returns. -/
def Closes (s : Scan) (o : Owner μ) (d : Bytes) (s' : Scan) (o' : Owner μ) : Prop :=
  ∀ rest, (scan (d ++ rest) s).run c.handle o = (goOn rest s').run c.handle o'

variable {c} {s s₁ s₂ : Scan} {o o₁ o₂ : Owner μ} {d d₁ d₂ : Bytes} {ch : UInt8}

theorem Goes.closes (h₁ : Goes c s o d₁ s₁ o₁) (h₂ : Closes c s₁ o₁ d₂ s₂ o₂) :
    Closes c s o (d₁ ++ d₂) s₂ o₂ := by
  intro rest
  rw [List.append_assoc, h₁, h₂]

theorem Leads.closes (h₁ : Leads c s o d₁ s₁ o₁) (h₂ : Closes c s₁ o₁ (ch :: d₂) s₂ o₂)
    (hsp : ch ≠ SP) (hht : ch ≠ HT) : Closes c s o (d₁ ++ ch :: d₂) s₂ o₂ := by
  intro rest
  rw [List.append_assoc, List.cons_append, h₁ ch _ hsp hht, ← List.cons_append, h₂]

theorem closes_of_turn (h : (turn ch s).run c.handle o = (.ok ((), s₁), o₁)) :
    Closes c s o [ch] (s₁.advance ch) o₁ := by
  intro rest
  rw [List.singleton_append, run_scan_cons h]

theorem Closes.goes (h : Closes c s o d s₁ o₁) (hr : s₁.returned = false) :
    Goes c s o d s₁ o₁ := by
  intro rest
  rw [h, goOn_of_not_returned hr]

theorem execute_of_closes {p p' : Parser} {returned : Bool} (he : p.errno = .ok)
    (hre : p.state.reopens = none) (hd : d ≠ [])
    (h : Closes c { parser := p } o d { parser := p', returned } o₁) :
    HttpParser.execute c.handle p d o = (d.length, p', o₁) := by
  have henter : Scan.enter p = { parser := p } := by
    rw [Scan.enter, hre]
    rfl
  have hrun := h []
  rw [List.append_nil] at hrun
  rw [execute_eq he hd, henter, executeBody_eq]
  cases returned with
  | true =>
    rw [goOn_of_returned rfl] at hrun
    rw [run_bind_of_error hrun]
    rfl
  | false =>
    rw [goOn_of_not_returned rfl] at hrun
    rw [run_bind_of_ok (x := ()) hrun]
    rfl

/-- A call of one of the parsers, from what `http_parser_execute` makes of it. -/
theorem MessageParser.execute_eq {checkUpgrade : Bool} {q : MessageParser μ} {n : Nat} {p' : Parser}
    (h : HttpParser.execute c.handle q.parser d q.owner = (n, p', o₁)) :
    MessageParser.execute c checkUpgrade q d =
      (n, { parser := p'
            owner := o₁
            error :=
              if checkUpgrade ∧ p'.upgrade then .unknown
              else if p'.errno ≠ .ok then p'.errno
              else q.error }) := by
  unfold MessageParser.execute
  rw [h]

theorem MessageParser.error_of_fails {checkUpgrade : Bool} {q : MessageParser μ} {e : Errno}
    (hq : q.parser.errno = .ok) (hre : q.parser.state.reopens = none) (hd : d ≠ [])
    (h : Fails c { parser := q.parser } q.owner d e) (he : e ≠ .ok) :
    (MessageParser.execute c checkUpgrade q d).2.error ≠ .ok := by
  have herrno := execute_of_fails hq hre hd h
  generalize hcall : HttpParser.execute c.handle q.parser d q.owner = out at herrno
  obtain ⟨n, p', o'⟩ := out
  have herrno : p'.errno = e := herrno
  rw [MessageParser.execute_eq hcall]
  dsimp only
  split
  · decide
  · rw [herrno, if_pos he]
    exact he

end

/-! ## The empty line -/

/-- The parser when the headers are complete. -/
def headersEnd (p : Parser) : Parser :=
  { p with
    state := .headersDone
    nread := p.nread + 2
    upgrade :=
      if p.flags.upgrade ∧ p.flags.connectionUpgrade then p.type = .request ∨ p.statusCode = 101
      else p.method = .connect }

section

variable {μ : Type} {c : Callbacks μ} {p : Parser} (o : Owner μ)

theorem run_emptyLine (hst : p.state = .headerFieldStart) (htrailing : p.flags.trailing = false)
    (hchunked : p.flags.chunked = false) (hfit : p.nread + 2 ≤ maxHeaderSize) {s₁ : Scan}
    {o₁ : Owner μ}
    (hdone : (headersDone LF { parser := headersEnd p }).run c.handle
      { o with data := c.headersComplete (headersEnd p) o.data } = (.ok ((), s₁), o₁)) :
    Closes c { parser := p } o crlf (s₁.advance LF) o₁ := by
  let p₁ : Parser := { p with state := .headersAlmostDone, nread := p.nread + 1 }
  have hcr : (turn CR { parser := p }).run c.handle o = (.ok ((), { parser := p₁ }), o) := by
    rw [turn_eq (by rw [hst]; rfl) rfl (Nat.le_trans (by simp) hfit), hst]
    simp [dispatch, headerFieldStart, updateState, setParser, Inter.run, p₁]
  have hlf : (turn LF { parser := p₁ }).run c.handle o = (.ok ((), s₁), o₁) := by
    rw [← hdone, turn_eq rfl rfl hfit]
    simp [dispatch, headersAlmostDone, strictCheck, updateState, setParser, Inter.run, p₁,
      htrailing, hchunked, headersEnd]
  exact (goes_of_turn hcr rfl).closes (closes_of_turn hlf)

theorem headersDone_complete (htype : p.type = .request) (hchunked : p.flags.chunked = false)
    (hskip : p.flags.skipBody = false) (hlength : p.contentLength = ullongMax) :
    (headersDone LF { parser := p }).run c.handle o =
      (.ok ((), { parser := { p with nread := 0, state := p.newMessage }, returned := p.upgrade }),
        { o with finished := true }) := by
  have heof : Parser.messageNeedsEof { p with nread := 0, upgrade := false } = false :=
    if_pos htype
  have hpos : p.contentLength ≠ 0 := by
    rw [hlength]
    decide
  cases hup : p.upgrade with
  | true =>
    simp [headersDone, strictCheck, setParser, updateState, callbackNotify, callback, returnAfter,
      Inter.run, hchunked, eq_true hlength, hup]
    rfl
  | false =>
    simp [headersDone, strictCheck, setParser, updateState, callbackNotify, callback, Inter.run,
      hchunked, hskip, eq_true hlength, hpos, hup, heof]
    rfl

theorem headersDone_body (hmethod : p.method ≠ .connect) (hchunked : p.flags.chunked = false)
    (hskip : p.flags.skipBody = false) (hpos : p.contentLength ≠ 0)
    (hlength : p.contentLength ≠ ullongMax) :
    (headersDone LF { parser := p }).run c.handle o =
      (.ok ((), { parser := { p with nread := 0, state := .bodyIdentity } }), o) := by
  simp [headersDone, strictCheck, setParser, updateState, Inter.run, hchunked, hskip, hlength, hpos,
    hmethod]

/-- A response without a length goes on to the end of the stream. -/
theorem headersDone_eof (hup : p.upgrade = false) (hchunked : p.flags.chunked = false)
    (hskip : p.flags.skipBody = false) (hlength : p.contentLength = ullongMax)
    (heof : p.messageNeedsEof = true) :
    (headersDone LF { parser := p }).run c.handle o =
      (.ok ((), { parser := { p with nread := 0, state := .bodyIdentityEof } }), o) := by
  have heof' : Parser.messageNeedsEof { p with nread := 0 } = true := heof
  have hpos : p.contentLength ≠ 0 := by
    rw [hlength]
    decide
  simp [headersDone, strictCheck, setParser, updateState, Inter.run, hchunked, hskip,
    eq_true hlength, hpos, eq_false (Bool.eq_false_iff.mp hup), heof']

/-! ## Bodies -/

/-- The parser behind a body. -/
def messageEnd (p : Parser) : Parser :=
  { p with contentLength := 0, state := Parser.newMessage { p with contentLength := 0 } }

theorem run_messageDone :
    (messageDone { parser := p }).run c.handle o =
      (.ok ((), { parser := { p with state := p.newMessage }, returned := p.upgrade }),
        { o with finished := true }) := by
  cases hup : p.upgrade <;>
    simp [messageDone, updateState, setParser, callbackNotify, callback, returnAfter, Inter.run,
      hup]

/-- The bytes of a body, of which `bs` have been read before. -/
theorem closes_body_mark {p : Parser} {m : Option (Span × Bytes)} {bs d : Bytes}
    (hm : BodyMark m bs) (hst : p.state = .bodyIdentity) (hd : d ≠ [])
    (hlen : p.contentLength = d.length) :
    Closes c { parser := p, mark := m } o d { parser := messageEnd p, returned := p.upgrade }
      { o with data := c.appendBody (bs ++ d) o.data, finished := true } := by
  induction d generalizing p m bs with
  | nil => exact absurd rfl hd
  | cons ch d ih =>
    rw [List.length_cons] at hlen
    have hbody : (turn ch { parser := p, mark := m }).run c.handle o =
        (bodyIdentity ch { parser := p, mark := m }).run c.handle o := by
      rw [turn_of_body (by rw [hst]; rfl), hst]
      rfl
    by_cases hlast : d = []
    · -- the last byte belongs to the span, and the message is complete
      subst hlast
      have hone : p.contentLength - 1 = 0 := by
        rw [hlen]
        rfl
      have hturn : (turn ch { parser := p, mark := m }).run c.handle o =
          (.ok ((), { parser := messageEnd p, returned := p.upgrade }),
            { o with data := c.appendBody (bs ++ [ch]) o.data, finished := true }) := by
        rw [hbody]
        simp only [bodyIdentity, setMark, setParser, updateState, hm.setMark, hone, callbackData,
          callback, InterM.bind_apply, modify_apply, bind_ret, gets_apply, if_true, ask_apply,
          bind_call, Inter.run, handle_body, ne_eq, not_true_eq_false, if_false, pure_apply]
        rw [run_messageDone]
        rfl
      exact closes_of_turn hturn
    · have hpos := List.length_pos_iff.mpr hlast
      have hmore : p.contentLength - 1 ≠ 0 := by omega
      have hturn : (turn ch { parser := p, mark := m }).run c.handle o =
          (.ok ((), { parser := { p with contentLength := p.contentLength - 1 }
                      mark := some (.body, bs) }), o) := by
        rw [hbody, bodyIdentity_more hm hmore]
        rfl
      have hrest := ih (p := { p with contentLength := p.contentLength - 1 })
        (.set (bs ++ [ch])) hst hlast (by change p.contentLength - 1 = _; omega)
      have hgo := (goes_of_turn hturn rfl).closes hrest
      rwa [List.append_assoc] at hgo

end

/-! ## Bodies without a length -/

section

variable {μ : Type} {c : Callbacks μ} {p : Parser} (o : Owner μ) {d : Bytes}

/-- A body that goes on to the end of the stream takes every byte. -/
theorem goes_eof {m : Option (Span × Bytes)} {bs : Bytes} (hm : BodyMark m bs)
    (hst : p.state = .bodyIdentityEof) (hd : d ≠ []) :
    Goes c { parser := p, mark := m } o d { parser := p, mark := some (.body, bs ++ d) } o := by
  induction d generalizing m bs with
  | nil => exact absurd rfl hd
  | cons ch d ih =>
    have hturn : (turn ch { parser := p, mark := m }).run c.handle o =
        (.ok ((), { parser := p, mark := some (.body, bs) }), o) := by
      rw [turn_of_body (by rw [hst]; rfl), hst]
      simp [dispatch, setMark, hm.setMark, Inter.run]
    have hfirst : Goes c { parser := p, mark := m } o [ch]
        { parser := p, mark := some (.body, bs ++ [ch]) } o := goes_of_turn hturn rfl
    by_cases hlast : d = []
    · subst hlast
      exact hfirst
    · have hrest := ih (.set (bs ++ [ch])) hlast
      rw [List.append_assoc] at hrest
      exact hfirst.trans hrest

/-- A call in such a body hands over all it is given, and changes nothing else. -/
theorem execute_eof (he : p.errno = .ok) (hst : p.state = .bodyIdentityEof) (hd : d ≠ []) :
    HttpParser.execute c.handle p d o =
      (d.length, p, { o with data := c.appendBody d o.data }) := by
  have henter : Scan.enter p = { parser := p } := by
    rw [Scan.enter, hst]
    rfl
  have hscan := goes_eof (c := c) o .unset hst hd []
  rw [List.append_nil, List.nil_append] at hscan
  have hrun : (executeBody d { parser := p }).run c.handle o =
      (.ok ((), { parser := p }), { o with data := c.appendBody d o.data }) := by
    rw [executeBody_eq, run_bind_of_ok (x := ()) hscan]
    simp [finish, callbackData, callback, run_mapExit, Inter.run]
    rfl
  rw [execute_eq he hd, henter, hrun]
  rfl

end

/-! ## Headers and body -/

/-- The parser at the start of the headers of a message. -/
structure AtHeaders (p : Parser) : Prop where
  state : p.state = .headerFieldStart
  chunked : p.flags.chunked = false
  trailing : p.flags.trailing = false
  skipBody : p.flags.skipBody = false
  noLength : p.flags.contentLength = false
  contentLength : p.contentLength = ullongMax

/-- The header that `dump` adds for a body. -/
def lengthHeader (body : Bytes) : List (Bytes × Bytes) :=
  if body = [] then [] else [(ascii "content-length", decimal body.length)]

/-- The header that makes the parser expect another protocol, together with `Connection`. -/
def AsksUpgrade (es : List (Bytes × Bytes)) : Prop :=
  ∃ e ∈ es, caseEq e.1 (ascii "upgrade") ∧ e.2 ≠ []

def ConnectionUpgrade (es : List (Bytes × Bytes)) : Prop :=
  ∃ e ∈ es, caseEq e.1 (ascii "connection") ∧ caseEq e.2 (ascii "upgrade")

/-- The parser `p₁` when the headers `es` are complete, and `p'` at the end of the message; `p` is
the parser in front of the headers. -/
structure AtEnd (p : Parser) (es : List (Bytes × Bytes)) (p₁ p' : Parser) : Prop where
  httpMajor : p₁.httpMajor = p.httpMajor
  httpMinor : p₁.httpMinor = p.httpMinor
  statusCode : p₁.statusCode = p.statusCode
  method : p₁.method = p.method
  upgraded : p.type = .request → AsksUpgrade es → ConnectionUpgrade es → p₁.upgrade = true
  not_upgraded : p.flags.upgrade = false → ¬ AsksUpgrade es → p.method ≠ .connect →
    p₁.upgrade = false
  upgrade : p'.upgrade = p₁.upgrade
  errno : p'.errno = p.errno

theorem AtEnd.of_core {p p₂ p' : Parser} {es : List (Bytes × Bytes)} {hasLength : Bool} {n : Nat}
    (hcore : core p₂ =
      { core p with
        upgradeHeader := p.flags.upgrade ||
          es.any fun e => decide (caseEq e.1 (ascii "upgrade") ∧ e.2 ≠ [])
        hasLength
        contentLength := n })
    (hconn : ConnectionUpgrade es → p₂.flags.connectionUpgrade = true)
    (hup : p'.upgrade = (headersEnd p₂).upgrade) (herrno : p'.errno = p₂.errno) :
    AtEnd p es (headersEnd p₂) p' := by
  have hflag : p₂.flags.upgrade = (p.flags.upgrade ||
      es.any fun e => decide (caseEq e.1 (ascii "upgrade") ∧ e.2 ≠ [])) :=
    congrArg Core.upgradeHeader hcore
  have hany : (es.any fun e => decide (caseEq e.1 (ascii "upgrade") ∧ e.2 ≠ [])) = true ↔
      AsksUpgrade es := by
    rw [List.any_eq_true]
    simp only [decide_eq_true_eq]
    rfl
  constructor
  case httpMajor => exact congrArg Core.httpMajor hcore
  case httpMinor => exact congrArg Core.httpMinor hcore
  case statusCode => exact congrArg Core.statusCode hcore
  case method => exact congrArg Core.method hcore
  case upgraded =>
    intro htype hasks hconnection
    have htype' : p₂.type = p.type := congrArg Core.type hcore
    -- both headers are there, and the request asks for the upgrade
    have hset : p₂.flags.upgrade = true ∧ p₂.flags.connectionUpgrade = true := by
      rw [hflag, hany.mpr hasks, Bool.or_true]
      exact ⟨rfl, hconn hconnection⟩
    rw [headersEnd]
    dsimp only
    rw [if_pos hset, htype', htype]
    rfl
  case not_upgraded =>
    intro hno hasks hmethod
    have hmethod' : p₂.method = p.method := congrArg Core.method hcore
    -- without the header only `CONNECT` sets the flag
    have hclear : p₂.flags.upgrade = false := by
      rw [hflag, hno, Bool.false_or]
      exact Bool.eq_false_iff.mpr (mt hany.mp hasks)
    rw [headersEnd]
    dsimp only
    rw [if_neg (by rw [hclear]; simp), hmethod']
    exact decide_eq_false hmethod
  case upgrade => exact hup
  case errno => exact herrno.trans (congrArg Core.errno hcore)

/-- The empty line of a request without a body. -/
theorem closes_crlf {μ : Type} {c : Callbacks μ} {p : Parser} (o : Owner μ) (hp : AtHeaders p)
    (htype : p.type = .request) (hfit : p.nread + 2 ≤ maxHeaderSize) :
    Closes c { parser := p } o crlf
      { parser := { headersEnd p with nread := 0, state := (headersEnd p).newMessage }
        returned := (headersEnd p).upgrade }
      { o with data := c.headersComplete (headersEnd p) o.data, finished := true } :=
  run_emptyLine o hp.state hp.trailing hp.chunked hfit
    (headersDone_complete _ htype hp.chunked hp.skipBody hp.contentLength)

/-- The length, the empty line and the body. -/
theorem closes_bodyText {μ : Type} {c : Callbacks μ} {p : Parser} (o : Owner μ) (hp : AtHeaders p)
    (hmethod : p.method ≠ .connect) {body : Bytes} (hbody : body ≠ [])
    (hlength : body.length ≤ ullongMax - 10)
    (hfit : p.nread + (headerLine (ascii "content-length", decimal body.length)).length + 2 ≤
      maxHeaderSize) :
    ∃ p₁ p', AfterLength p body.length p₁ ∧ p'.upgrade = (headersEnd p₁).upgrade ∧
      p'.errno = p₁.errno ∧
      Closes c { parser := p } o (bodyText body)
        { parser := p', returned := (headersEnd p₁).upgrade }
        { filed := ascii "content-length"
          finished := true
          data := c.appendBody body (c.headersComplete (headersEnd p₁)
            (c.setHeader (ascii "content-length") (decimal body.length) o.data)) } := by
  have hpos := List.length_pos_iff.mpr hbody
  obtain ⟨p₁, hline, hp₁⟩ := leads_length (c := c) o hp.state hp.noLength hlength (by omega)
  -- the data after the line with the length
  let o₁ : Owner μ :=
    { o with
      filed := ascii "content-length"
      data := c.setHeader (ascii "content-length") (decimal body.length) o.data }
  have hchunked : p₁.flags.chunked = false := (congrArg Core.chunked hp₁.core).trans hp.chunked
  have hcount : p₁.contentLength = body.length := congrArg Core.contentLength hp₁.core
  -- the parser after the empty line, in front of the body
  let p₂ : Parser := { headersEnd p₁ with nread := 0, state := .bodyIdentity }
  have hempty : Closes c { parser := p₁ } o₁ crlf { parser := p₂ }
      { o₁ with data := c.headersComplete (headersEnd p₁) o₁.data } := by
    have hdone : (headersDone LF { parser := headersEnd p₁ }).run c.handle
        { o₁ with data := c.headersComplete (headersEnd p₁) o₁.data } =
        (.ok ((), { parser := p₂ }),
          { o₁ with data := c.headersComplete (headersEnd p₁) o₁.data }) := by
      have hmax : 10 < ullongMax := by decide
      apply headersDone_body
      · exact fun h => hmethod ((congrArg Core.method hp₁.core).symm.trans h)
      · exact hchunked
      · exact (congrArg Core.skipBody hp₁.core).trans hp.skipBody
      · change p₁.contentLength ≠ 0
        omega
      · change p₁.contentLength ≠ ullongMax
        omega
    exact run_emptyLine o₁ hp₁.state ((congrArg Core.trailing hp₁.core).trans hp.trailing) hchunked
      (by rw [hp₁.nread]; omega) hdone
  -- the body comes in one call, so it is reported in one piece
  have hend := closes_body_mark (c := c)
    { o₁ with data := c.headersComplete (headersEnd p₁) o₁.data } .unset (p := p₂) rfl hbody hcount
  have hrest : Closes c { parser := p₁ } o₁ (CR :: ([LF] ++ body)) _ _ :=
    (hempty.goes rfl).closes hend
  refine ⟨p₁, messageEnd p₂, hp₁, rfl, rfl, ?_⟩
  have hwhole := hline.closes hrest (by decide) (by decide)
  rw [bodyText, if_pos hbody, List.append_assoc]
  exact hwhole

/-- **The headers and the body of a message**: the headers are set one by one, with the length of
the body at the end, and the body is handed over in one piece. -/
theorem closes_message {μ : Type} {c : Callbacks μ} {p : Parser} (o : Owner μ) (hp : AtHeaders p)
    {es : List (Bytes × Bytes)} (hes : ∀ e ∈ es, IsHeader e) (hread : ∀ e ∈ es, Readable e.2)
    (body : Bytes) (hframe : p.type = .request ∨ body ≠ []) (hmethod : p.method ≠ .connect)
    (hlength : body.length ≤ ullongMax - 10)
    (hfit : p.nread + ((es ++ lengthHeader body).flatMap headerLine).length + 2 ≤ maxHeaderSize) :
    ∃ p₁ p' filed, AtEnd p es p₁ p' ∧
      Closes c { parser := p } o (es.flatMap headerLine ++ bodyText body)
        { parser := p', returned := p₁.upgrade }
        { filed
          finished := true
          data := (if body = [] then id else c.appendBody body) (c.headersComplete p₁
            ((es ++ lengthHeader body).foldl (fun d e => c.setHeader e.1 e.2 d) o.data)) } := by
  rw [List.flatMap_append, List.length_append] at hfit
  obtain ⟨p₁, filed, hlines, hp₁⟩ := leads_lines (c := c) hes hread o hp.state (by omega)
  have hcore := hp₁.core
  have hp₁' : AtHeaders p₁ := by
    constructor
    case state => exact hp₁.state
    case chunked => exact (congrArg Core.chunked hcore).trans hp.chunked
    case trailing => exact (congrArg Core.trailing hcore).trans hp.trailing
    case skipBody => exact (congrArg Core.skipBody hcore).trans hp.skipBody
    case noLength => exact (congrArg Core.hasLength hcore).trans hp.noLength
    case contentLength => exact (congrArg Core.contentLength hcore).trans hp.contentLength
  have hconn (h : ConnectionUpgrade es) : p₁.flags.connectionUpgrade = true :=
    hp₁.connectionUpgrade (.inr h)
  by_cases hbody : body = []
  · -- a request
    subst hbody
    have htype := hframe.resolve_right fun h => h rfl
    have hend := closes_crlf (c := c) { o with
        filed, data := es.foldl (fun d e => c.setHeader e.1 e.2 d) o.data } hp₁'
      ((congrArg Core.type hcore).trans htype) (by rw [hp₁.nread]; omega)
    have hwhole :=
      hlines.closes (show Closes c _ _ (CR :: [LF]) _ _ from hend) (by decide) (by decide)
    have hnil : es ++ lengthHeader [] = es := List.append_nil es
    rw [hnil, if_pos rfl]
    refine ⟨headersEnd p₁, _, filed, ?_, hwhole⟩
    exact .of_core hcore hconn rfl rfl
  · have hheader : lengthHeader body = [(ascii "content-length", decimal body.length)] :=
      if_neg hbody
    rw [hheader, List.flatMap_cons, List.flatMap_nil, List.append_nil] at hfit
    obtain ⟨p₂, p', hp₂, hup, herrno, hend⟩ := closes_bodyText (c := c)
      { o with filed, data := es.foldl (fun d e => c.setHeader e.1 e.2 d) o.data } hp₁'
      (fun h => hmethod ((congrArg Core.method hcore).symm.trans h)) hbody hlength
      (by rw [hp₁.nread]; omega)
    have hcore₂ := hp₂.core
    rw [hcore] at hcore₂
    have hconn₂ (h : ConnectionUpgrade es) : p₂.flags.connectionUpgrade = true :=
      hp₂.connectionUpgrade.trans (hconn h)
    refine ⟨headersEnd p₂, p', ascii "content-length", .of_core hcore₂ hconn₂ hup herrno, ?_⟩
    rw [hheader, List.foldl_append, if_neg hbody]
    have hfirst : bodyText body = 'c'.toUInt8 :: (bodyText body).tail := by
      rw [bodyText, if_pos hbody]
      rfl
    rw [hfirst] at hend ⊢
    exact hlines.closes hend (by decide) (by decide)

end Luwu.Http
