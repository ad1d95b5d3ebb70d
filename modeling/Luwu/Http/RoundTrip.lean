import Luwu.Http.StartLine

/-!
# Messages that are written and read again

`dump` and the parsers are two sides of one format.  A request comes back as it was when its method
is one that `HttpMethodToString` knows, its fragment does not start with the delimiter of
fragments, and its values are made of characters the parser takes; otherwise it does not.
-/

namespace Luwu.Http

open Lib HttpParser Inter InterM

/-! ## Header maps -/

/-- The headers that `dump` adds on its own account. -/
def addedByDump (e : Bytes × Bytes) : Bool :=
  decide (caseEq e.1 (ascii "connection")) || decide (caseEq e.1 (ascii "content-length"))

/-- The headers of the message that has been read are those of the message that was written, apart
from the two that `dump` writes for itself. -/
def SameHeaders (sent got : MapType) : Prop :=
  got.entries.filter (fun e => !addedByDump e) = sent.entries

instance (sent got : MapType) : Decidable (SameHeaders sent got) :=
  inferInstanceAs (Decidable (_ = _))

/-- The map after headers have been set one by one. -/
def assignAll (es : List (Bytes × Bytes)) (m : MapType) : MapType :=
  es.foldl (fun m e => m.assign e.1 e.2) m

/-- At most one header, whose name is `name`. -/
def AtMostOne (name : Bytes) (es : List (Bytes × Bytes)) : Prop :=
  es = [] ∨ ∃ e, es = [e] ∧ caseEq e.1 name

theorem AtMostOne.pairwise {name : Bytes} {es : List (Bytes × Bytes)} (h : AtMostOne name es) :
    es.Pairwise fun a b => caseKey a.1 ≠ caseKey b.1 := by
  rcases h with rfl | ⟨e, rfl, -⟩
  · exact .nil
  · exact List.pairwise_singleton _ _

theorem AtMostOne.caseEq {name : Bytes} {es : List (Bytes × Bytes)} (h : AtMostOne name es)
    {e : Bytes × Bytes} (he : e ∈ es) : caseEq e.1 name := by
  rcases h with rfl | ⟨e', rfl, hname⟩
  · exact absurd he List.not_mem_nil
  · rw [List.mem_singleton.mp he]
    exact hname

/-- **The map that the parser builds** from the headers of a map and those that `dump` adds. -/
theorem sameHeaders_assignAll {m : MapType} (hm : ∀ e ∈ m.entries, addedByDump e = false)
    {conn len : List (Bytes × Bytes)} (hconn : AtMostOne (ascii "connection") conn)
    (hlen : AtMostOne (ascii "content-length") len) :
    SameHeaders m (assignAll (conn ++ m.entries ++ len) .empty) := by
  have hnot {e : Bytes × Bytes} (he : e ∈ m.entries) :
      ¬ caseEq e.1 (ascii "connection") ∧ ¬ caseEq e.1 (ascii "content-length") := by
    simpa [addedByDump] using hm e he
  have hadded {e : Bytes × Bytes} (he : e ∈ conn ∨ e ∈ len) : addedByDump e = true := by
    rcases he with he | he
    · simp [addedByDump, hconn.caseEq he]
    · simp [addedByDump, hlen.caseEq he]
  -- all names are different
  have hdistinct : (conn ++ m.entries ++ len).Pairwise fun a b => caseKey a.1 ≠ caseKey b.1 := by
    refine List.pairwise_append.mpr ⟨List.pairwise_append.mpr ⟨hconn.pairwise, ?_, ?_⟩,
      hlen.pairwise, ?_⟩
    · exact m.sorted.imp fun h => ne_of_lt h
    · exact fun a ha b hb heq => (hnot hb).1 (heq.symm.trans (hconn.caseEq ha))
    · intro a ha b hb heq
      rcases List.mem_append.mp ha with ha | ha
      · have hkey : caseKey (ascii "connection") = caseKey (ascii "content-length") :=
          (hconn.caseEq ha).symm.trans (heq.trans (hlen.caseEq hb))
        exact absurd hkey (by decide)
      · exact (hnot ha).2 (heq.trans (hlen.caseEq hb))
  have hperm := OrderedMap.foldl_assign_perm (m := (.empty : MapType)) hdistinct
    fun _ _ e' he' => absurd he' List.not_mem_nil
  have hfilter : (conn ++ m.entries ++ len).filter (fun e => !addedByDump e) = m.entries := by
    have hno (es : List (Bytes × Bytes)) (hes : ∀ e ∈ es, e ∈ conn ∨ e ∈ len) :
        es.filter (fun e => !addedByDump e) = [] :=
      List.filter_eq_nil_iff.mpr fun e he => by simp [hadded (hes e he)]
    have hall : m.entries.filter (fun e => !addedByDump e) = m.entries :=
      List.filter_eq_self.mpr fun e he => by simp [hm e he]
    rw [List.filter_append, List.filter_append, hno conn fun _ => .inl, hno len fun _ => .inr, hall,
      List.nil_append, List.append_nil]
  refine OrderedMap.eq_of_perm ?_ ((assignAll _ _).sorted.filter _) m.sorted
  have hentries := hperm.filter fun e => !addedByDump e
  rwa [show (OrderedMap.empty : MapType).entries = [] from rfl, List.append_nil, hfilter]
    at hentries

theorem foldl_setHeader (es : List (Bytes × Bytes)) (r : HttpRequest) :
    es.foldl (fun d e => requestCallbacks.setHeader e.1 e.2 d) r =
      { r with headers := assignAll es r.headers } := by
  induction es generalizing r with
  | nil => rfl
  | cons e es ih =>
    rw [List.foldl_cons, ih]
    rfl

/-! ## The headers that are written -/

/-- The names that `dump` and the parser give a meaning of their own. -/
def reservedNames : List Bytes :=
  [ascii "connection", ascii "content-length", ascii "transfer-encoding", ascii "upgrade"]

/-- Headers as a message may have them: the names are tokens, none of them reserved, and the values
have no line breaks in them and no blanks around them.  That the names are different is in the
map. -/
def PlainHeaders (reserved : List Bytes) (m : MapType) : Prop :=
  ∀ e ∈ m.entries, IsName e.1 ∧ (∀ n ∈ reserved, ¬ caseEq e.1 n) ∧ Trimmed e.2

instance (reserved : List Bytes) (m : MapType) : Decidable (PlainHeaders reserved m) :=
  inferInstanceAs (Decidable (∀ _ ∈ _, _))

/-- The connection header of a message that is not for a WebSocket. -/
def connectionHeader (name : Bytes) (webSocket close : Bool) : List (Bytes × Bytes) :=
  if !webSocket then [(name, connectionText close)] else []

section

variable {m : MapType} (hm : PlainHeaders reservedNames m) {name : Bytes}
  (hname : name = ascii "Connection" ∨ name = ascii "connection") (webSocket close : Bool)

theorem mem_connectionHeader {e : Bytes × Bytes} (he : e ∈ connectionHeader name webSocket close) :
    e = (name, connectionText close) := by
  cases webSocket with
  | true => exact absurd he List.not_mem_nil
  | false => exact List.mem_singleton.mp he

include hname

theorem connectionHeader_facts :
    IsHeader (name, connectionText close) ∧ Readable (connectionText close) ∧
      caseEq name (ascii "connection") ∧ ¬ caseEq name (ascii "upgrade") := by
  rcases hname with rfl | rfl <;> cases close <;>
    exact ⟨⟨by decide, by decide, by decide, by decide⟩, by decide, by decide, by decide⟩

theorem connectionHeader_atMostOne :
    AtMostOne (ascii "connection") (connectionHeader name webSocket close) := by
  cases webSocket with
  | true => exact .inl rfl
  | false => exact .inr ⟨_, rfl, (connectionHeader_facts hname close).2.2.1⟩

theorem written_readable :
    (∀ e ∈ connectionHeader name webSocket close ++ m.entries, Readable e.2) ↔
      ∀ e ∈ m.entries, Readable e.2 := by
  constructor
  · exact fun h e he => h e (List.mem_append_right _ he)
  · intro h e he
    rcases List.mem_append.mp he with he | he
    · rw [mem_connectionHeader webSocket close he]
      exact (connectionHeader_facts hname close).2.1
    · exact h e he

include hm

theorem written_isHeader :
    ∀ e ∈ connectionHeader name webSocket close ++ m.entries, IsHeader e := by
  intro e he
  rcases List.mem_append.mp he with he | he
  · rw [mem_connectionHeader webSocket close he]
    exact (connectionHeader_facts hname close).1
  · obtain ⟨hname, hreserved, htrim⟩ := hm e he
    exact ⟨hname, hreserved _ (by decide), hreserved _ (by decide), htrim⟩

theorem written_no_upgrade :
    ¬ AsksUpgrade (connectionHeader name webSocket close ++ m.entries) := by
  rintro ⟨e, he, hup, -⟩
  rcases List.mem_append.mp he with he | he
  · rw [mem_connectionHeader webSocket close he] at hup
    exact (connectionHeader_facts hname close).2.2.2 hup
  · exact (hm e he).2.1 _ (by decide) hup

/-- **The map that the parser builds** from the headers that are written. -/
theorem sameHeaders_written (body : Bytes) :
    SameHeaders m (assignAll (connectionHeader name webSocket close ++ m.entries ++
      lengthHeader body) .empty) := by
  have hlength : AtMostOne (ascii "content-length") (lengthHeader body) := by
    unfold lengthHeader
    split
    · exact .inl rfl
    · exact .inr ⟨_, rfl, rfl⟩
  apply sameHeaders_assignAll _ (connectionHeader_atMostOne hname webSocket close) hlength
  intro e he
  obtain ⟨-, hreserved, -⟩ := hm e he
  simp [addedByDump, hreserved (ascii "connection") (by decide),
    hreserved (ascii "content-length") (by decide)]

end

/-! ## Requests on the wire -/

/-- The parts of a request, with its headers in the order in which they are sent. -/
structure WireRequest where
  method : Method
  path : Bytes
  query : Bytes := []
  fragment : Bytes := []
  version : UInt8 := 0x11
  headers : List (Bytes × Bytes)
  body : Bytes := []

/-- The bytes of a request; a body comes with its length. -/
def WireRequest.bytes (w : WireRequest) : Bytes :=
  requestLine w.method.string w.path w.query w.fragment w.version ++
    (w.headers.flatMap headerLine ++ bodyText w.body)

theorem WireRequest.bytes_ne_nil (w : WireRequest) : w.bytes ≠ [] := by
  simp [WireRequest.bytes, requestLine, crlf]

/-- The parts are made of the characters that may stand in them. -/
structure WireRequest.WellFormed (w : WireRequest) : Prop where
  method : w.method ≠ .connect
  version : IsVersion w.version
  path : IsPath w.path
  query : IsQuery w.query
  fragment : IsFragment w.fragment
  headers : ∀ e ∈ w.headers, IsHeader e

/-- The request is within the limits of the parser. -/
structure WireRequest.Fits (w : WireRequest) : Prop where
  head : (requestLine w.method.string w.path w.query w.fragment w.version).length +
    ((w.headers ++ lengthHeader w.body).flatMap headerLine).length + 2 ≤ maxHeaderSize
  target : TargetFits w.path w.query w.fragment
  body : w.body.length ≤ ullongMax - 10

/-- The request that the parser makes of the bytes. -/
def WireRequest.parsed (w : WireRequest) : HttpRequest :=
  { method := w.method
    version := w.version
    path := w.path
    query := w.query
    fragment := fragmentRest w.fragment
    headers := assignAll (w.headers ++ lengthHeader w.body) .empty
    body := w.body }

section

variable {w : WireRequest} (hw : w.WellFormed) (hfits : w.Fits)
include hw hfits

theorem WireRequest.goes_first : ∃ p,
    Goes requestCallbacks { parser := .init .request } { data := {} }
      (requestLine w.method.string w.path w.query w.fragment w.version) { parser := p }
      { data := { ({} : HttpRequest) with
          path := w.path, query := w.query, fragment := fragmentRest w.fragment } } ∧
      AfterRequestLine w.method w.version
        (requestLine w.method.string w.path w.query w.fragment w.version) p := by
  have hfit := hfits.head
  have hurl := onRequestUrl_target hw.path hw.query hw.fragment hfits.target
    (r := ({} : HttpRequest)) rfl rfl
  exact goes_requestLine (c := requestCallbacks) { data := {} } hw.method hw.path hw.query
    hw.fragment hw.version hurl (by omega)

/-- **What the parser makes of the bytes of a request.**  A request for another protocol is an
error. -/
theorem WireRequest.execute_bytes (hread : ∀ e ∈ w.headers, Readable e.2) :
    ∃ n p filed, HttpRequestParser.new.execute w.bytes =
        (n, { parser := p
              owner := { data := w.parsed, filed, finished := true }
              error := if p.upgrade then .unknown else .ok }) ∧
      n = w.bytes.length ∧
      (AsksUpgrade w.headers → ConnectionUpgrade w.headers → p.upgrade = true) ∧
      (¬ AsksUpgrade w.headers → p.upgrade = false) := by
  have hfit := hfits.head
  -- the first line, and then the headers and the body
  obtain ⟨p, hline, hp⟩ := WireRequest.goes_first hw hfits
  have hmethod : p.method ≠ .connect := by
    rw [hp.method]
    exact hw.method
  obtain ⟨p₁, p', filed, hend, hrest⟩ := closes_message (c := requestCallbacks)
    { data := { ({} : HttpRequest) with
        path := w.path, query := w.query, fragment := fragmentRest w.fragment } }
    hp.atHeaders hw.headers hread w.body (.inl hp.type) hmethod hfits.body (by rw [hp.nread]; omega)
  have hcall := execute_of_closes (p := .init .request) rfl rfl w.bytes_ne_nil (hline.closes hrest)
  -- what the callbacks are given through the parser
  have herrno : p'.errno = .ok := hend.errno.trans hp.errno
  have hversion : versionOf p₁ = w.version :=
    versionOf_digits (hend.httpMajor.trans hp.httpMajor) (hend.httpMinor.trans hp.httpMinor)
  have hmethod₁ : p₁.method = w.method := hend.method.trans hp.method
  have hcall' : HttpRequestParser.new.execute w.bytes = _ :=
    MessageParser.execute_eq (q := HttpRequestParser.new) hcall
  refine ⟨_, p', filed, ?_, rfl, ?_, ?_⟩
  · rw [hcall', foldl_setHeader]
    by_cases hbody : w.body = []
    · simp [WireRequest.parsed, requestCallbacks, hversion, hmethod₁, hbody, herrno,
        HttpRequestParser.new]
    · simp [WireRequest.parsed, requestCallbacks, hversion, hmethod₁, hbody, herrno,
        HttpRequestParser.new, HttpRequest.appendBody]
  · intro hasks hconn
    rw [hend.upgrade]
    exact hend.upgraded hp.type hasks hconn
  · intro hasks
    rw [hend.upgrade]
    exact hend.not_upgraded hp.upgrade hasks hmethod

/-- A value that must not stand in a line is an error. -/
theorem WireRequest.execute_unreadable (hread : ¬ ∀ e ∈ w.headers, Readable e.2) :
    (HttpRequestParser.new.execute w.bytes).2.error ≠ .ok := by
  have hfit := hfits.head
  rw [List.flatMap_append, List.length_append] at hfit
  obtain ⟨p, hline, hp⟩ := WireRequest.goes_first hw hfits
  have hlines := hline.fails (fails_lines hw.headers hread hp.atHeaders.state hp.lenient
    (by rw [hp.nread]; omega))
  have hfails := hlines.append (bodyText w.body)
  rw [List.append_assoc] at hfails
  exact MessageParser.error_of_fails (q := HttpRequestParser.new) rfl rfl w.bytes_ne_nil hfails
    (by decide)

end

/-! ## Requests that are dumped -/

/-- The requests in question. -/
structure Dumpable (r : HttpRequest) : Prop where
  method : r.method ≠ .connect
  version : IsVersion r.version
  path : IsPath r.path
  query : IsQuery r.query
  fragment : IsFragment r.fragment
  headers : PlainHeaders reservedNames r.headers

/-- What is sent of the request is within the limits of the parser. -/
structure RequestFits (r : HttpRequest) : Prop where
  head : (requestLine (httpMethodToString r.method) r.path r.query r.fragment r.version).length +
    ((r.dumpHeaders ++ lengthHeader r.body).flatMap headerLine).length + 2 ≤ maxHeaderSize
  target : TargetFits r.path r.query r.fragment
  body : r.body.length ≤ ullongMax - 10

/-- A parser that is given what `dump` writes finishes without error, with the same request. -/
def RequestSurvives (r : HttpRequest) : Prop :=
  let q := (HttpRequestParser.new.execute r.dump).2
  q.error = .ok ∧ q.owner.finished = true ∧ q.owner.data.method = r.method ∧
    q.owner.data.version = r.version ∧ q.owner.data.path = r.path ∧ q.owner.data.query = r.query ∧
    q.owner.data.fragment = r.fragment ∧ SameHeaders r.headers q.owner.data.headers ∧
    q.owner.data.body = r.body

instance (r : HttpRequest) : Decidable (RequestSurvives r) := inferInstanceAs (Decidable (_ ∧ _))

theorem dump_eq (r : HttpRequest) :
    r.dump = requestLine (httpMethodToString r.method) r.path r.query r.fragment r.version ++
      (r.dumpHeaders.flatMap headerLine ++ bodyText r.body) := by
  simp only [HttpRequest.dump, requestLine, List.append_assoc]

theorem dumpHeaders_eq {r : HttpRequest} (hr : PlainHeaders reservedNames r.headers) :
    r.dumpHeaders =
      connectionHeader (ascii "Connection") r.webSocket r.close ++ r.headers.entries := by
  have hall : r.headers.entries.filter (fun e =>
      !(!r.webSocket && decide (caseEq e.1 (ascii "Connection"))) &&
        !(decide (r.body ≠ []) && decide (caseEq e.1 (ascii "content-length")))) =
      r.headers.entries := by
    apply List.filter_eq_self.mpr
    intro e he
    obtain ⟨-, hreserved, -⟩ := hr e he
    have hkey : caseKey (ascii "Connection") = caseKey (ascii "connection") := by decide
    have hconn : ¬ caseEq e.1 (ascii "Connection") := by
      rw [caseEq, hkey]
      exact hreserved (ascii "connection") (by decide)
    simp [hconn, hreserved (ascii "content-length") (by decide)]
  rw [HttpRequest.dumpHeaders, hall]
  rfl

theorem httpMethodToString_of_lt {m : HttpMethod} (h : methodNumber m < 6) :
    httpMethodToString m = m.string := by
  revert h
  cases m <;> decide

theorem httpMethodToString_of_le {m : HttpMethod} (h : 6 ≤ methodNumber m) :
    httpMethodToString m = ascii "<unknown>" := by
  revert h
  cases m <;> decide

/-- What `dump` sends of a request whose method it knows. -/
def wireOf (r : HttpRequest) : WireRequest where
  method := r.method
  path := r.path
  query := r.query
  fragment := r.fragment
  version := r.version
  headers := connectionHeader (ascii "Connection") r.webSocket r.close ++ r.headers.entries
  body := r.body

theorem wireOf_bytes {r : HttpRequest} (hr : Dumpable r) (hm : methodNumber r.method < 6) :
    (wireOf r).bytes = r.dump := by
  rw [dump_eq, dumpHeaders_eq hr.headers, httpMethodToString_of_lt hm]
  rfl

theorem wireOf_wellFormed {r : HttpRequest} (hr : Dumpable r) : (wireOf r).WellFormed :=
  ⟨hr.method, hr.version, hr.path, hr.query, hr.fragment,
    written_isHeader hr.headers (.inl rfl) r.webSocket r.close⟩

theorem wireOf_fits {r : HttpRequest} (hr : Dumpable r) (hfits : RequestFits r)
    (hm : methodNumber r.method < 6) : (wireOf r).Fits := by
  refine ⟨?_, hfits.target, hfits.body⟩
  have hhead := hfits.head
  rw [httpMethodToString_of_lt hm, dumpHeaders_eq hr.headers] at hhead
  exact hhead

/-- A method that `HttpMethodToString` does not know is none to the parser. -/
theorem execute_dump_unknown {r : HttpRequest} (hm : 6 ≤ methodNumber r.method) :
    (HttpRequestParser.new.execute r.dump).2.error ≠ .ok := by
  have hturn : (turn '<'.toUInt8 { parser := .init .request }).run requestCallbacks.handle
      { data := {} } = _ := rfl
  have hfirst : Fails requestCallbacks { parser := .init .request } { data := {} } ['<'.toUInt8]
      .invalidMethod := fails_of_turn hturn rfl
  have hdump : ∃ d, r.dump = ['<'.toUInt8] ++ d := by
    rw [dump_eq, httpMethodToString_of_le hm]
    exact ⟨_, rfl⟩
  obtain ⟨d, hd⟩ := hdump
  have hfails := hfirst.append d
  rw [← hd] at hfails
  exact MessageParser.error_of_fails (q := HttpRequestParser.new) rfl rfl (by rw [hd]; simp) hfails
    (by decide)

/-- **A request survives just when its method has one of the first six numbers, its fragment does
not start with the delimiter, and the parser takes its values.** -/
theorem requestSurvives_iff {r : HttpRequest} (hr : Dumpable r) (hfits : RequestFits r) :
    RequestSurvives r ↔
      methodNumber r.method < 6 ∧ r.fragment.head? ≠ some '#'.toUInt8 ∧
        ∀ e ∈ r.headers.entries, Readable e.2 := by
  have hreadable : (∀ e ∈ (wireOf r).headers, Readable e.2) ↔
      ∀ e ∈ r.headers.entries, Readable e.2 := written_readable (.inl rfl) r.webSocket r.close
  by_cases hm : methodNumber r.method < 6
  · have hwf := wireOf_wellFormed hr
    have hwfits := wireOf_fits hr hfits hm
    unfold RequestSurvives
    rw [← wireOf_bytes hr hm, ← hreadable]
    by_cases hread : ∀ e ∈ (wireOf r).headers, Readable e.2
    · obtain ⟨n, p, filed, hcall, -, -, hup⟩ := WireRequest.execute_bytes hwf hwfits hread
      have hnot := hup (written_no_upgrade hr.headers (.inl rfl) r.webSocket r.close)
      have hsame : SameHeaders r.headers (wireOf r).parsed.headers :=
        sameHeaders_written hr.headers (.inl rfl) r.webSocket r.close r.body
      rw [hcall, hnot, ← fragmentRest_eq_iff]
      constructor
      · exact fun h => ⟨hm, h.2.2.2.2.2.2.1, hread⟩
      · exact fun h => ⟨rfl, rfl, rfl, rfl, rfl, rfl, h.2.1, hsame, rfl⟩
    · constructor
      · exact fun h => absurd h.1 (WireRequest.execute_unreadable hwf hwfits hread)
      · exact fun h => absurd h.2.2 hread
  · constructor
    · exact fun h => absurd h.1 (execute_dump_unknown (Nat.not_lt.mp hm))
    · exact fun h => absurd h.1 hm

/-- A request with all its parts. -/
theorem requestSurvives_put :
    RequestSurvives
      { method := .put
        path := ascii "/a"
        query := ascii "b=?"
        fragment := ascii "c#"
        headers := OrderedMap.empty.assign (ascii "Host") (ascii "d e")
        body := ascii "f" } := by
  refine (requestSurvives_iff ?_ ?_).mpr (by decide)
  · exact ⟨by decide, by decide, by decide, by decide, by decide, by decide⟩
  · refine ⟨by decide +kernel,
      ⟨by decide, fun _ => by decide, fun _ => by decide +kernel⟩, by decide⟩

/-- The number of `OPTIONS` is 6. -/
theorem options_not_survives :
    Dumpable { method := .options } ∧ RequestFits { method := .options } ∧
      ¬ RequestSurvives { method := .options } := by
  refine ⟨⟨by decide, by decide, by decide, by decide, by decide, by decide⟩, ?_, by decide +kernel⟩
  exact ⟨by decide +kernel, ⟨by decide, fun h => absurd rfl h, fun h => absurd rfl h⟩, by decide⟩

end Luwu.Http
