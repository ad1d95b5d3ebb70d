import Luwu.Http.RoundTrip
import Luwu.Http.Session

/-!
# Responses that are sent and received

`sendResponse` writes a response with the length of its body, but only when there is a body.
Without a length the response goes on to the end of the stream for the parser, and `recvResponse`
never tells the parser that the stream has ended: a response without a body is not received at all.
-/

namespace Luwu.Http

open Lib HttpParser Inter InterM

/-- The responses in question. -/
structure Sendable (r : HttpResponse) : Prop where
  status : r.status ∈ httpStatusMap.map Prod.fst
  not_informational : r.status / 100 ≠ 1
  not_noContent : r.status ≠ 204
  not_notModified : r.status ≠ 304
  headers : PlainHeaders (ascii "set-cookie" :: reservedNames) r.headers

/-- The reason that `dump` writes. -/
def reasonText (r : HttpResponse) : Bytes :=
  if r.reason = [] then httpStatusToString r.status else r.reason

/-- The reason is on one line, and what is sent of the response is within the limits of the parser
and of the buffer. -/
structure ResponseFits (bufferSize : Nat) (r : HttpResponse) : Prop where
  reason : CR ∉ r.reason ∧ LF ∉ r.reason
  head : (statusLine r.version r.status (reasonText r)).length +
    ((r.dumpHeaders ++ lengthHeader r.body).flatMap headerLine).length + 2 ≤ maxHeaderSize
  body : r.body.length ≤ ullongMax - 10
  buffer : r.dump.length ≤ bufferSize

/-- A peer whose first read returns what `sendResponse` has written receives the same response,
whatever the stream has in store after that. -/
def ResponseSurvives (bufferSize : Nat) (r : HttpResponse) : Prop :=
  ∀ server peer : Stream, server.writable = true →
    (sendResponse r server).2.output = server.output ++ (peer.read bufferSize).1 →
    ∃ rsp, (recvResponse bufferSize peer).1 = some rsp ∧ rsp.status = r.status ∧
      SameHeaders r.headers rsp.headers ∧ rsp.body = r.body

/-! ## What is sent -/

theorem dumpResponse_eq (r : HttpResponse) :
    r.dump = statusLine r.version r.status (reasonText r) ++
      (r.dumpHeaders.flatMap headerLine ++ bodyText r.body) := by
  simp only [HttpResponse.dump, statusLine, reasonText, List.append_assoc]

theorem dumpResponse_ne_nil (r : HttpResponse) : r.dump ≠ [] := by
  rw [dumpResponse_eq]
  simp [statusLine, crlf]

theorem sendResponse_output {server : Stream} (hw : server.writable = true) (r : HttpResponse) :
    (sendResponse r server).2.output = server.output ++ r.dump := by
  obtain ⟨room, hwrite⟩ := Stream.writeFixSize_ok hw r.dump
  rw [sendResponse, hwrite]

theorem status_facts {n : Nat} (h : n ∈ httpStatusMap.map Prod.fst) :
    100 ≤ n ∧ n < 1000 ∧ httpStatusToString n ≠ [] ∧ CR ∉ httpStatusToString n ∧
      LF ∉ httpStatusToString n := by
  have hall : ∀ n ∈ httpStatusMap.map Prod.fst, 100 ≤ n ∧ n < 1000 ∧ httpStatusToString n ≠ [] ∧
      CR ∉ httpStatusToString n ∧ LF ∉ httpStatusToString n := by
    decide +kernel
  exact hall n h

theorem reasonText_facts {r : HttpResponse} (hr : Sendable r)
    (hreason : CR ∉ r.reason ∧ LF ∉ r.reason) :
    reasonText r ≠ [] ∧ CR ∉ reasonText r ∧ LF ∉ reasonText r := by
  obtain ⟨-, -, htext⟩ := status_facts hr.status
  unfold reasonText
  split
  · exact htext
  · next hne => exact ⟨hne, hreason⟩

theorem Sendable.plain {r : HttpResponse} (hr : Sendable r) :
    PlainHeaders reservedNames r.headers := by
  intro e he
  obtain ⟨hname, hreserved, htrim⟩ := hr.headers e he
  exact ⟨hname, fun n hn => hreserved n (List.mem_cons_of_mem _ hn), htrim⟩

theorem dumpResponseHeaders_eq {r : HttpResponse} (hr : PlainHeaders reservedNames r.headers) :
    r.dumpHeaders =
      connectionHeader (ascii "connection") r.webSocket r.close ++ r.headers.entries := by
  have hall : r.headers.entries.filter (fun e =>
      !(!r.webSocket && decide (caseEq e.1 (ascii "connection")))) = r.headers.entries := by
    apply List.filter_eq_self.mpr
    intro e he
    obtain ⟨-, hreserved, -⟩ := hr e he
    simp [hreserved (ascii "connection") (by decide)]
  rw [HttpResponse.dumpHeaders, hall]
  rfl

theorem foldl_setResponseHeader (es : List (Bytes × Bytes)) (r : HttpResponse) :
    es.foldl (fun d e => responseCallbacks.setHeader e.1 e.2 d) r =
      { r with headers := assignAll es r.headers } := by
  induction es generalizing r with
  | nil => rfl
  | cons e es ih =>
    rw [List.foldl_cons, ih]
    rfl

/-! ## What the parser makes of it -/

section

variable {bufferSize : Nat} {r : HttpResponse} (hr : Sendable r)
include hr

theorem dumpResponse_isHeader : ∀ e ∈ r.dumpHeaders, IsHeader e := by
  rw [dumpResponseHeaders_eq hr.plain]
  exact written_isHeader hr.plain (.inr rfl) r.webSocket r.close

theorem dumpResponse_readable :
    (∀ e ∈ r.dumpHeaders, Readable e.2) ↔ ∀ e ∈ r.headers.entries, Readable e.2 := by
  rw [dumpResponseHeaders_eq hr.plain]
  exact written_readable (.inr rfl) r.webSocket r.close

variable (hfits : ResponseFits bufferSize r)
include hfits

theorem goes_first (hv : IsVersion r.version) :
    ∃ p p₁, p₁.statusCode = r.status ∧
      Goes responseCallbacks { parser := .init .response } { data := {} }
        (statusLine r.version r.status (reasonText r)) { parser := p }
        { data := responseCallbacks.status p₁ {} } ∧
      AfterStatusLine r.status (statusLine r.version r.status (reasonText r)) p := by
  have hfit := hfits.head
  obtain ⟨hlow, hhigh, -⟩ := status_facts hr.status
  obtain ⟨hne, hcr, hlf⟩ := reasonText_facts hr hfits.reason
  exact goes_statusLine (c := responseCallbacks) { data := {} } hv hlow hhigh hne hcr hlf (by omega)

/-- A response with a body is finished with its last byte. -/
theorem execute_response (hv : IsVersion r.version) (hbody : r.body ≠ [])
    (hread : ∀ e ∈ r.headers.entries, Readable e.2) :
    ∃ p rsp filed, HttpResponseParser.new.execute r.dump =
        (r.dump.length, { parser := p, owner := { data := rsp, filed, finished := true } }) ∧
      rsp.status = r.status ∧ SameHeaders r.headers rsp.headers ∧ rsp.body = r.body := by
  have hfit := hfits.head
  obtain ⟨p, p₀, hp₀, hline, hp⟩ := goes_first hr hfits hv
  obtain ⟨p₁, p', filed, hend, hrest⟩ := closes_message (c := responseCallbacks)
    { data := responseCallbacks.status p₀ {} } hp.atHeaders (dumpResponse_isHeader hr)
    ((dumpResponse_readable hr).mpr hread) r.body (.inr hbody) hp.method hfits.body
    (by rw [hp.nread]; omega)
  have hwhole := hline.closes hrest
  rw [← dumpResponse_eq] at hwhole
  have hcall := execute_of_closes (p := .init .response) rfl rfl (dumpResponse_ne_nil r) hwhole
  have herrno : p'.errno = .ok := hend.errno.trans hp.errno
  have hstatus : p₁.statusCode = r.status := hend.statusCode.trans hp.statusCode
  have hcall' : HttpResponseParser.new.execute r.dump = _ :=
    MessageParser.execute_eq (q := HttpResponseParser.new) hcall
  rw [foldl_setResponseHeader] at hcall'
  -- `dump` adds the connection and the length, and the map keeps the others
  have hsame : SameHeaders r.headers (assignAll (r.dumpHeaders ++ lengthHeader r.body) .empty) := by
    rw [dumpResponseHeaders_eq hr.plain]
    exact sameHeaders_written hr.plain (.inr rfl) r.webSocket r.close r.body
  let rsp : HttpResponse :=
    { status := r.status
      version := versionOf p₁
      headers := assignAll (r.dumpHeaders ++ lengthHeader r.body) .empty
      body := r.body }
  refine ⟨p', rsp, filed, ?_, rfl, hsame, rfl⟩
  rw [hcall']
  simp [herrno, hbody, hstatus, responseCallbacks, HttpResponse.appendBody, HttpResponseParser.new,
    rsp]

/-- A response without a body goes on to the end of the stream. -/
theorem execute_bodiless (hv : IsVersion r.version) (hbody : r.body = [])
    (hread : ∀ e ∈ r.headers.entries, Readable e.2) :
    ∃ p o, HttpResponseParser.new.execute r.dump = (r.dump.length, { parser := p, owner := o }) ∧
      p.state = .bodyIdentityEof ∧ p.errno = .ok ∧ o.finished = false := by
  have hfit := hfits.head
  rw [List.flatMap_append, List.length_append] at hfit
  obtain ⟨p, p₀, hp₀, hline, hp⟩ := goes_first hr hfits hv
  obtain ⟨p₁, filed, hlines, hp₁⟩ := leads_lines (c := responseCallbacks)
    (dumpResponse_isHeader hr) ((dumpResponse_readable hr).mpr hread)
    { data := responseCallbacks.status p₀ {} } hp.atHeaders.state (by rw [hp.nread]; omega)
  have hcore := hp₁.core
  have hnext : AtEnd p r.dumpHeaders (headersEnd p₁) (headersEnd p₁) :=
    .of_core hcore (fun h => hp₁.connectionUpgrade (.inr h)) rfl rfl
  have hno : ¬ AsksUpgrade r.dumpHeaders := by
    rw [dumpResponseHeaders_eq hr.plain]
    exact written_no_upgrade hr.plain (.inr rfl) r.webSocket r.close
  have hchunked : p₁.flags.chunked = false :=
    (congrArg Core.chunked hcore).trans hp.atHeaders.chunked
  have hskip : p₁.flags.skipBody = false :=
    (congrArg Core.skipBody hcore).trans hp.atHeaders.skipBody
  have hlength : p₁.contentLength = ullongMax :=
    (congrArg Core.contentLength hcore).trans hp.atHeaders.contentLength
  have htype : p₁.type = .response := (congrArg Core.type hcore).trans hp.type
  have hstatus : p₁.statusCode = r.status := (congrArg Core.statusCode hcore).trans hp.statusCode
  -- the status says that there is a body, and nothing says how long it is
  have heof : (headersEnd p₁).messageNeedsEof = true := by
    simp [Parser.messageNeedsEof, headersEnd, htype, hstatus, hskip, hchunked, hlength,
      hr.not_informational, hr.not_noContent, hr.not_notModified]
  let o₁ : Owner HttpResponse :=
    { filed
      data := r.dumpHeaders.foldl (fun d e => responseCallbacks.setHeader e.1 e.2 d)
        (responseCallbacks.status p₀ {}) }
  have hempty := run_emptyLine (c := responseCallbacks) o₁ hp₁.state
    ((congrArg Core.trailing hcore).trans hp.atHeaders.trailing) hchunked
    (by rw [hp₁.nread, hp.nread]; omega)
    (headersDone_eof _ (hnext.not_upgraded hp.upgrade hno hp.method) hchunked hskip hlength heof)
  have hrest : Closes responseCallbacks _ _ (r.dumpHeaders.flatMap headerLine ++ CR :: [LF]) _ _ :=
    hlines.closes hempty (by decide) (by decide)
  have hdump : r.dump = statusLine r.version r.status (reasonText r) ++
      (r.dumpHeaders.flatMap headerLine ++ [CR, LF]) := by
    rw [dumpResponse_eq, hbody]
    rfl
  have hwhole := hline.closes hrest
  rw [← hdump] at hwhole
  have hcall := execute_of_closes (p := .init .response) rfl rfl (dumpResponse_ne_nil r) hwhole
  have hcall' : HttpResponseParser.new.execute r.dump = _ :=
    MessageParser.execute_eq (q := HttpResponseParser.new) hcall
  have herrno : p₁.errno = .ok := (congrArg Core.errno hcore).trans hp.errno
  refine ⟨{ headersEnd p₁ with nread := 0, state := .bodyIdentityEof },
    { o₁ with data := responseCallbacks.headersComplete (headersEnd p₁) o₁.data },
    hcall'.trans ?_, rfl, herrno, rfl⟩
  simp [headersEnd, herrno, HttpResponseParser.new]

/-- A version or a value that must not stand in a line is an error. -/
theorem execute_refused
    (h : ¬ (IsVersion r.version ∧ ∀ e ∈ r.headers.entries, Readable e.2)) :
    (HttpResponseParser.new.execute r.dump).2.error ≠ .ok := by
  have hfails : ∃ e ≠ Errno.ok, Fails responseCallbacks { parser := .init .response } { data := {} }
      r.dump e := by
    by_cases hv : IsVersion r.version
    · have hfit := hfits.head
      rw [List.flatMap_append, List.length_append] at hfit
      have hread : ¬ ∀ e ∈ r.dumpHeaders, Readable e.2 :=
        fun hread => h ⟨hv, (dumpResponse_readable hr).mp hread⟩
      obtain ⟨p, p₀, hp₀, hline, hp⟩ := goes_first hr hfits hv
      have hlines := hline.fails (fails_lines (dumpResponse_isHeader hr) hread hp.atHeaders.state
        hp.lenient (by rw [hp.nread]; omega))
      have hfails := hlines.append (bodyText r.body)
      rw [List.append_assoc, ← dumpResponse_eq] at hfails
      exact ⟨.invalidHeaderToken, by decide, hfails⟩
    · rw [HttpResponse.dump]
      simp only [List.append_assoc]
      exact ⟨.invalidVersion, by decide, (fails_responseVersion _ hv).append _⟩
  obtain ⟨e, he, hfails⟩ := hfails
  exact MessageParser.error_of_fails (q := HttpResponseParser.new) rfl rfl (dumpResponse_ne_nil r)
    hfails he

end

/-! ## What the peer receives -/

/-- **A response that goes on to the end of the stream is never received.**  The loop gives up when
the stream ends. -/
theorem receive_eof {bufferSize : Nat} {q : HttpResponseParser} (s : Stream)
    (hst : q.parser.state = .bodyIdentityEof) (he : q.parser.errno = .ok) (hq : q.error = .ok)
    (hfinished : q.owner.finished = false) :
    (receive HttpResponseParser.execute bufferSize q [] s).1 = none := by
  -- every turn of the loop takes bytes from the stream and leaves the parser where it is
  induction hn : s.input.length using Nat.strongRecOn generalizing s q with
  | ind n ih =>
    subst hn
    by_cases hd : (s.read bufferSize).1 = []
    · rw [receive_end hd]
    · have hcall : q.execute (s.read bufferSize).1 = _ :=
        MessageParser.execute_eq (execute_eof (c := responseCallbacks) q.owner he hst hd)
      have hrest := ih _ (read_input_lt hd) (q := (q.execute (s.read bufferSize).1).2)
        (s.read bufferSize).2 (by rw [hcall]; exact hst) (by rw [hcall]; exact he)
        (by rw [hcall]; simp [he, hq]) (by rw [hcall]; exact hfinished) rfl
      rw [receive_first rfl hd]
      split_ifs with herr hfull hdone
      · rfl
      · rfl
      · rw [hcall] at hdone
        exact absurd hdone (by rw [hfinished]; decide)
      · rw [hcall, List.drop_length]
        rw [hcall] at hrest
        exact hrest

section

variable {bufferSize : Nat} {r : HttpResponse} {peer : Stream}
  (hpeer : (peer.read bufferSize).1 = r.dump)
include hpeer

theorem recvResponse_refused (h : (HttpResponseParser.new.execute r.dump).2.error ≠ .ok) :
    (recvResponse bufferSize peer).1 = none := by
  rw [recvResponse, receive_first hpeer (dumpResponse_ne_nil r), if_pos h]
  rfl

variable (hr : Sendable r) (hfits : ResponseFits bufferSize r)
include hr hfits

theorem recvResponse_bodiless (hv : IsVersion r.version) (hbody : r.body = [])
    (hread : ∀ e ∈ r.headers.entries, Readable e.2) :
    (recvResponse bufferSize peer).1 = none := by
  obtain ⟨p, o, hcall, hst, herrno, hfinished⟩ := execute_bodiless hr hfits hv hbody hread
  rw [recvResponse, receive_first hpeer (dumpResponse_ne_nil r), hcall, List.drop_length]
  dsimp only
  rw [if_neg (by decide)]
  split_ifs with hfull hdone
  · rfl
  · rw [hfinished] at hdone
    exact absurd hdone (by decide)
  · rw [receive_eof _ hst herrno rfl hfinished]
    rfl

theorem recvResponse_body (hv : IsVersion r.version) (hbody : r.body ≠ [])
    (hread : ∀ e ∈ r.headers.entries, Readable e.2) :
    ∃ rsp, (recvResponse bufferSize peer).1 = some rsp ∧ rsp.status = r.status ∧
      SameHeaders r.headers rsp.headers ∧ rsp.body = r.body := by
  obtain ⟨p, rsp, filed, hcall, hsame⟩ := execute_response hr hfits hv hbody hread
  have hroom : ([] : Bytes).length ≠ bufferSize := by
    have hpos := List.length_pos_iff.mpr (dumpResponse_ne_nil r)
    have hle := hfits.buffer
    rw [List.length_nil]
    omega
  refine ⟨rsp, ?_, hsame⟩
  rw [recvResponse, receive_first hpeer (dumpResponse_ne_nil r), hcall, List.drop_length]
  dsimp only
  rw [if_neg (by decide), if_neg hroom, if_pos rfl]
  rfl

end

/-- **A response is received just when it has a body, its version is one of two digits, and the
parser takes its values.** -/
theorem responseSurvives_iff {bufferSize : Nat} {r : HttpResponse} (hr : Sendable r)
    (hfits : ResponseFits bufferSize r) :
    ResponseSurvives bufferSize r ↔
      r.body ≠ [] ∧ IsVersion r.version ∧ ∀ e ∈ r.headers.entries, Readable e.2 := by
  constructor
  · intro h
    -- a peer that finds just the response
    have hpeer : (Stream.read { input := r.dump } bufferSize).1 = r.dump :=
      List.take_of_length_le hfits.buffer
    have hsent := @sendResponse_output { input := [] } rfl r
    obtain ⟨rsp, hrecv, -⟩ := h { input := [] } { input := r.dump } rfl (by rw [hsent, hpeer])
    have hnot : (recvResponse bufferSize { input := r.dump }).1 ≠ none := by
      rw [hrecv]
      exact Option.some_ne_none rsp
    have hhead : IsVersion r.version ∧ ∀ e ∈ r.headers.entries, Readable e.2 :=
      not_not.mp fun hhead => hnot (recvResponse_refused hpeer (execute_refused hr hfits hhead))
    refine ⟨fun hbody => ?_, hhead⟩
    exact hnot (recvResponse_bodiless hpeer hr hfits hhead.1 hbody hhead.2)
  · rintro ⟨hbody, hv, hread⟩ server peer hw hsent
    rw [sendResponse_output hw] at hsent
    exact recvResponse_body (List.append_cancel_left hsent).symm hr hfits hv hbody hread

/-- A response with a header and a body. -/
theorem responseSurvives_page :
    ResponseSurvives 4096
      { headers := OrderedMap.empty.assign (ascii "Server") (ascii "a b"), body := ascii "c" } := by
  refine (responseSurvives_iff ?_ ?_).mpr (by decide)
  · exact ⟨by decide, by decide, by decide, by decide, by decide⟩
  · exact ⟨by decide, by decide +kernel, by decide, by decide +kernel⟩

/-- A response without a body. -/
theorem bodiless_not_survives :
    Sendable {} ∧ ResponseFits 4096 {} ∧ ¬ ResponseSurvives 4096 {} := by
  refine ⟨⟨by decide, by decide, by decide, by decide, by decide⟩,
    ⟨by decide, by decide +kernel, by decide, by decide +kernel⟩, fun h => ?_⟩
  have hnone : (recvResponse 4096 { input := HttpResponse.dump {} }).1 = none := by decide +kernel
  obtain ⟨rsp, hrecv, -⟩ := h { input := [] } { input := HttpResponse.dump {} } rfl
    (by decide +kernel)
  rw [hnone] at hrecv
  exact Option.some_ne_none rsp hrecv.symm

end Luwu.Http
