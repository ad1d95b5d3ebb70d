import Luwu.Http.Session
import Mathlib.Data.List.Induction

/-!
# Messages that arrive in pieces

The bytes of a message may be handed to `execute` in several calls.  The callbacks for the URL, a
header name and a header value take the bytes they are given for the whole span, so a call that
ends in one of these spans breaks it in two.  A message that is cut anywhere else leaves the parser
as one call would leave it, the error flag included.
-/

namespace Luwu.Http

open Lib HttpParser InterM Inter

variable {μ : Type} {c : Callbacks μ} {check : Bool} {type : ParserType} {pieces : List Bytes}

instance : (r : Ending) → Decidable r.Parsed
  | .ok _ => inferInstanceAs (Decidable True)
  | .error (.returned n, _) => inferInstanceAs (Decidable (n = 0))
  | .error (.failed _, _) => inferInstanceAs (Decidable False)

/-! ## Messages and their pieces -/

/-- The callbacks that a fresh parser makes for the bytes `d` in one call, and how the call ends,
when every callback succeeds. -/
def course (type : ParserType) (d : Bytes) : List HttpParser.Event × Ending :=
  (executeBody d (Scan.enter (.init type))).follow 0

/-- The bytes are one message: the parser takes all of them without an error, it comes to the end of
one message head, and it has told of the end of the message or its body goes on until the connection
is closed. -/
structure IsMessage (type : ParserType) (d : Bytes) : Prop where
  parsed : (course type d).2.Parsed
  head : (course type d).1.countP (fun e => e.1 = .headersComplete) = 1
  complete : (course type d).1.getLast?.map Prod.fst = some .messageComplete ∨
    (course type d).2.scan.parser.state = .bodyIdentityEof

instance (type : ParserType) (d : Bytes) : Decidable (IsMessage type d) :=
  decidable_of_iff ((course type d).2.Parsed ∧
      (course type d).1.countP (fun e => e.1 = .headersComplete) = 1 ∧
      ((course type d).1.getLast?.map Prod.fst = some .messageComplete ∨
        (course type d).2.scan.parser.state = .bodyIdentityEof))
    ⟨fun h => ⟨h.1, h.2.1, h.2.2⟩, fun h => ⟨h.parsed, h.head, h.complete⟩⟩

/-- Where the parser is behind the bytes `d`. -/
def stateAfter (type : ParserType) (d : Bytes) : State :=
  (Ending.scan ((scan d (Scan.enter (.init type))).follow 0).2).parser.state

/-- The states in which the URL, a header name or a header value is being read. -/
def breaksSpan (st : State) : Bool :=
  st.reopens = some .url || st.reopens = some .headerField || st.reopens = some .headerValue

/-- No piece but the last ends in the URL, in a header name or in a header value. -/
def CutBetween (type : ParserType) (pieces : List Bytes) : Prop :=
  ∀ k < pieces.length, 0 < k → breaksSpan (stateAfter type (pieces.take k).flatten) = false

instance (type : ParserType) (pieces : List Bytes) : Decidable (CutBetween type pieces) :=
  inferInstanceAs (Decidable (∀ k < pieces.length, _))

theorem reopens_of_not_breaksSpan {st : State} (h : breaksSpan st = false) :
    st.reopens = none ∨ st = .resStatus := by
  revert h
  cases st <;> decide

/-! ## The error flag -/

/-- What `execute` makes of the error flag `e`. -/
def errorAfter (check : Bool) (p : Parser) (e : Errno) : Errno :=
  if check ∧ p.upgrade then .unknown else if p.errno ≠ .ok then p.errno else e

/-- A parser that makes `execute` set the error flag. -/
def Bad (check : Bool) (p : Parser) : Prop := (check = true ∧ p.upgrade = true) ∨ p.errno ≠ .ok

theorem errorAfter_of_bad {p : Parser} (h : Bad check p) (e e' : Errno) :
    errorAfter check p e = errorAfter check p e' := by
  unfold errorAfter
  rcases h with h | h
  · rw [if_pos h, if_pos h]
  · rw [if_pos h, if_pos h]

theorem errorAfter_ne_ok {p : Parser} (h : Bad check p) (e : Errno) :
    errorAfter check p e ≠ .ok := by
  unfold errorAfter
  split
  · decide
  · next hu =>
    have he := h.resolve_left hu
    rw [if_pos he]
    exact he

theorem errorAfter_of_not_bad {p : Parser} (h : ¬ Bad check p) (e : Errno) :
    errorAfter check p e = e := by
  unfold errorAfter
  rw [if_neg fun hu => h (.inl hu), if_neg fun he => h (.inr he)]

/-! ## Pieces -/

/-- The parser after the pieces, one call for each. -/
def MessageParser.feed (c : Callbacks μ) (check : Bool) (q : MessageParser μ)
    (pieces : List Bytes) : MessageParser μ :=
  pieces.foldl (fun q d => (q.execute c check d).2) q

theorem MessageParser.feed_snoc (q : MessageParser μ) (xs : List Bytes) (d : Bytes) :
    q.feed c check (xs ++ [d]) = ((q.feed c check xs).execute c check d).2 := by
  simp only [feed, List.foldl_append, List.foldl_cons, List.foldl_nil]

/-- The parser and the message are those of the calls of `http_parser_execute`. -/
theorem MessageParser.feed_eq (q : MessageParser μ) (pieces : List Bytes) :
    (q.feed c check pieces).parser = (HttpParser.feed c.handle pieces q.parser q.owner).1 ∧
      (q.feed c check pieces).owner = (HttpParser.feed c.handle pieces q.parser q.owner).2 := by
  induction pieces using List.reverseRecOn with
  | nil => exact ⟨rfl, rfl⟩
  | append_singleton xs d ih =>
    rw [feed_snoc, HttpParser.feed_snoc, ← ih.1, ← ih.2]
    exact ⟨rfl, rfl⟩

theorem MessageParser.feed_snoc_error (q : MessageParser μ) (xs : List Bytes) (d : Bytes) :
    (q.feed c check (xs ++ [d])).error =
      errorAfter check (q.feed c check (xs ++ [d])).parser (q.feed c check xs).error := by
  rw [feed_snoc]
  rfl

/-- The error flag has changed at a piece whose call ends with a bad parser. -/
theorem MessageParser.feed_error {q : MessageParser μ} {xs : List Bytes}
    (h : (q.feed c check xs).error ≠ q.error) :
    ∃ zs ys, zs ≠ [] ∧ zs ++ ys = xs ∧ Bad check (q.feed c check zs).parser := by
  induction xs using List.reverseRecOn with
  | nil => exact absurd rfl h
  | append_singleton xs d ih =>
    by_cases hbad : Bad check (q.feed c check (xs ++ [d])).parser
    · exact ⟨xs ++ [d], [], by simp, List.append_nil _, hbad⟩
    · rw [feed_snoc_error, errorAfter_of_not_bad hbad] at h
      obtain ⟨zs, ys, hzs, rfl, hzsbad⟩ := ih h
      exact ⟨zs, ys ++ [d], hzs, by rw [List.append_assoc], hzsbad⟩

theorem not_mem_of_count {es₁ es₂ : List HttpParser.Event} {p : Parser}
    (hcount : (es₁ ++ es₂).countP (fun e => e.1 = .headersComplete) = 1)
    (hmem : (.headersComplete, p) ∈ es₁) (p' : Parser) : (.headersComplete, p') ∉ es₂ := by
  intro hmem'
  have h₁ : 0 < es₁.countP (fun e => e.1 = .headersComplete) :=
    List.countP_pos_iff.mpr ⟨_, hmem, by simp⟩
  have h₂ : 0 < es₂.countP (fun e => e.1 = .headersComplete) :=
    List.countP_pos_iff.mpr ⟨_, hmem', by simp⟩
  rw [List.countP_append] at hcount
  omega

section

variable (hg : Gathers c.handle) {xs : List Bytes} {d : Bytes}
  (hmsg : IsMessage type (xs ++ [d]).flatten) (hne : ∀ x ∈ xs ++ [d], x ≠ [])
  (hcut : CutBetween type (xs ++ [d])) (o : Owner μ)

include hcut in
/-- Where a prefix of the pieces ends, the parser is between two spans. -/
theorem CutBetween.reopens {zs ys : List Bytes} (hzs : zs ≠ []) (hsplit : zs ++ ys = xs)
    {es : List HttpParser.Event} {s : Scan}
    (hscan : (scan zs.flatten (Scan.enter (.init type))).follow 0 = (es, .ok ((), s))) :
    s.parser.state.reopens = none ∨ s.parser.state = .resStatus := by
  have hlt : zs.length < (xs ++ [d]).length := by
    rw [← hsplit]
    simp
  have htake : (xs ++ [d]).take zs.length = zs := by
    rw [← hsplit, List.append_assoc, List.take_left]
  have hst := hcut zs.length hlt (List.length_pos_iff.mpr hzs)
  rw [htake] at hst
  unfold stateAfter at hst
  rw [hscan] at hst
  exact reopens_of_not_breaksSpan hst

include hcut in
theorem CutBetween.clean {zs ys : List Bytes} (hsplit : zs ++ ys = xs) :
    ∀ zs' ys', zs' ≠ [] → zs' ++ ys' = zs → ∀ es s,
      (scan zs'.flatten (Scan.enter (.init type))).follow 0 = (es, .ok ((), s)) →
        s.parser.state.reopens = none ∨ s.parser.state = .resStatus := by
  intro zs' ys' hzs' hsplit' es s hscan
  have hxs : zs' ++ (ys' ++ ys) = xs := by rw [← List.append_assoc, hsplit', hsplit]
  exact hcut.reopens hzs' hxs hscan

include hg hmsg hne hcut in
/-- The calls for the pieces leave the parser and the message as one call does. -/
theorem feed_eq_execute :
    HttpParser.feed c.handle (xs ++ [d]) (.init type) o =
      (HttpParser.execute c.handle (.init type) (xs ++ [d]).flatten o).2 := by
  have hflat : (xs ++ [d]).flatten = xs.flatten ++ d := by simp
  have hd : d ≠ [] := hne d (by simp)
  have hbytes : xs.flatten ++ d ≠ [] := by simp [hd]
  rw [hflat] at hmsg ⊢
  rw [execute_eq rfl hbytes]
  exact feed_sim hg (fun x hx => hne x (List.mem_append_left _ hx)) hd (Scan.enter_ok _) rfl rfl
    (.same _ _) rfl hmsg.parsed (hcut.clean (List.append_nil xs))

include hmsg hne in
/-- The course of the message up to some of its pieces, and from there on. -/
theorem course_split {zs ys : List Bytes} (hsplit : zs ++ ys = xs) :
    ∃ es₁ s₁ es₂,
      (scan zs.flatten (Scan.enter (.init type))).follow 0 = (es₁, .ok ((), s₁)) ∧
      (executeBody (ys.flatten ++ d) s₁).follow 0 =
        (es₂, (course type (xs ++ [d]).flatten).2) ∧
      (course type (xs ++ [d]).flatten).1 = es₁ ++ es₂ := by
  have hd : d ≠ [] := hne d (by simp)
  have hflat : (xs ++ [d]).flatten = zs.flatten ++ (ys.flatten ++ d) := by
    rw [← hsplit]
    simp
  exact scan_of_parsed (r := (course type (xs ++ [d]).flatten).2) (by rw [← hflat]; rfl)
    hmsg.parsed (by simp [hd])

include hg hne hcut in
/-- Behind some of the pieces the calls are together with one call, unless they have stopped at an
error. -/
theorem feed_together {zs ys : List Bytes} (hsplit : zs ++ ys = xs)
    {es : List HttpParser.Event} {s : Scan}
    (hscan : (scan zs.flatten (Scan.enter (.init type))).follow 0 = (es, .ok ((), s))) :
    (HttpParser.feed c.handle zs (.init type) o).1.errno ≠ .ok ∨
      ∃ o₁ o₁', (scan zs.flatten (Scan.enter (.init type))).run c.handle o = (.ok ((), s), o₁) ∧
        HttpParser.feed c.handle zs (.init type) o = (s.parser, o₁') ∧
        Sim c.handle s o₁ (Scan.enter s.parser) o₁' := by
  have hzs : ∀ x ∈ zs, x ≠ [] := by
    intro x hx
    apply hne
    rw [← hsplit]
    simp [hx]
  rcases feed_prefix hg hzs (Scan.enter_ok _) rfl rfl (.same _ o) hscan (hcut.clean hsplit) with
    hsame | ⟨n, s₂, t₂, -, he₂, hfeed⟩
  · exact .inr hsame
  · left
    rw [show HttpParser.feed c.handle zs (.init type) o = _ from hfeed]
    exact he₂

include hg hmsg hne hcut in
/-- The upgrade flag that is set behind some of the pieces is set behind all of them, unless the URL
is refused. -/
theorem upgrade_persists {zs ys : List Bytes} (hsplit : zs ++ ys = xs)
    (hup : (HttpParser.feed c.handle zs (.init type) o).1.upgrade = true)
    (herr : (HttpParser.feed c.handle zs (.init type) o).1.errno = .ok) :
    Bad true (HttpParser.feed c.handle (xs ++ [d]) (.init type) o).1 := by
  obtain ⟨es₁, s₁, es₂, hscan, hlast, hes⟩ := course_split hmsg hne hsplit
  obtain ⟨o₁, o₁', -, hfeed, -⟩ :=
    (feed_together hg hne hcut o hsplit hscan).resolve_left (not_not.mpr herr)
  have hs₁ : s₁.parser.upgrade = true := by
    rw [hfeed] at hup
    exact hup
  -- the flag of a fresh parser is not set, so the head has ended in these pieces
  obtain ⟨p, hp⟩ : ∃ p, (.headersComplete, p) ∈ es₁ := by
    by_contra hno
    have hsame := scan_upgrade rfl hscan trivial fun p hp => hno ⟨p, hp⟩
    rw [show (Ending.scan (.ok ((), s₁))).parser.upgrade = true from hs₁] at hsame
    cases hsame
  have hrest : (course type (xs ++ [d]).flatten).2.scan.parser.upgrade = true := by
    rw [← hs₁]
    refine executeBody_upgrade (scan_sound rfl hscan trivial) hlast hmsg.parsed ?_
    exact not_mem_of_count (hes ▸ hmsg.head) hp
  have hd : d ≠ [] := hne d (by simp)
  have hbytes : (xs ++ [d]).flatten ≠ [] := by simp [hd]
  rw [feed_eq_execute hg hmsg hne hcut o, execute_eq rfl hbytes]
  rcases executeBody_run hg (Scan.enter_ok _) (Prod.ext rfl rfl) hmsg.parsed o with he | hend
  · exact .inr he
  · refine .inl ⟨rfl, ?_⟩
    rw [← hrest]
    exact congrArg Parser.upgrade hend

include hg hmsg hne hcut in
/-- A bad parser behind some of the pieces is a bad parser behind all of them. -/
theorem bad_persists {zs ys : List Bytes} (hsplit : zs ++ ys = xs)
    (hbad : Bad check (HttpParser.feed c.handle zs (.init type) o).1) :
    Bad check (HttpParser.feed c.handle (xs ++ [d]) (.init type) o).1 := by
  by_cases herr : (HttpParser.feed c.handle zs (.init type) o).1.errno = .ok
  · obtain ⟨rfl, hup⟩ := hbad.resolve_right (not_not.mpr herr)
    exact upgrade_persists hg hmsg hne hcut o hsplit hup herr
  · -- an error stays
    rw [← hsplit, List.append_assoc, HttpParser.feed_append, feed_of_error herr]
    exact .inr herr

/-- A parser of messages that has read nothing. -/
def MessageParser.fresh (type : ParserType) (o : Owner μ) : MessageParser μ :=
  { parser := .init type, owner := o }

include hg hmsg hne hcut in
/-- The error flag behind the pieces is the one that the last call sets. -/
theorem feed_error_eq :
    ((MessageParser.fresh type o).feed c check (xs ++ [d])).error =
      errorAfter check ((MessageParser.fresh type o).feed c check (xs ++ [d])).parser .ok := by
  rw [MessageParser.feed_snoc_error]
  by_cases hbad : Bad check ((MessageParser.fresh type o).feed c check (xs ++ [d])).parser
  · exact errorAfter_of_bad hbad _ _
  · rw [errorAfter_of_not_bad hbad, errorAfter_of_not_bad hbad]
    by_contra hset
    -- the flag was set at a piece, and would have been set at the last one too
    obtain ⟨zs, ys, -, hsplit, hzs⟩ := MessageParser.feed_error hset
    apply hbad
    rw [(MessageParser.feed_eq _ _).1] at hzs ⊢
    exact bad_persists hg hmsg hne hcut o hsplit hzs

include hg hmsg hne hcut in
/-- **The calls for the pieces leave the parser as one call does**, with its error flag. -/
theorem feed_eq_one_call :
    (MessageParser.fresh type o).feed c check (xs ++ [d]) =
      ((MessageParser.fresh type o).execute c check (xs ++ [d]).flatten).2 := by
  generalize hfeed : (MessageParser.fresh type o).feed c check (xs ++ [d]) = q
  have hparser : q.parser = (HttpParser.feed c.handle (xs ++ [d]) (.init type) o).1 := by
    rw [← hfeed]
    exact (MessageParser.feed_eq _ _).1
  have howner : q.owner = (HttpParser.feed c.handle (xs ++ [d]) (.init type) o).2 := by
    rw [← hfeed]
    exact (MessageParser.feed_eq _ _).2
  have hsame : HttpParser.feed c.handle (xs ++ [d]) (.init type) o =
      (HttpParser.execute c.handle (.init type) (xs ++ [d]).flatten o).2 :=
    feed_eq_execute hg hmsg hne hcut o
  have herror : q.error = errorAfter check q.parser .ok := by
    rw [← hfeed]
    exact feed_error_eq hg hmsg hne hcut o
  apply MessageParser.ext
  · rw [hparser]
    exact congrArg Prod.fst hsame
  · rw [howner]
    exact congrArg Prod.snd hsame
  · rw [herror, hparser]
    exact congrArg (fun e => errorAfter check e.1 .ok) hsame

end

/-! ## Requests and responses -/

/-- The parser of requests after the pieces. -/
def HttpRequestParser.feed (q : HttpRequestParser) (pieces : List Bytes) : HttpRequestParser :=
  pieces.foldl (fun q d => (q.execute d).2) q

/-- The parser of responses after the pieces. -/
def HttpResponseParser.feed (q : HttpResponseParser) (pieces : List Bytes) : HttpResponseParser :=
  pieces.foldl (fun q d => (q.execute d).2) q

theorem exists_snoc (hmsg : IsMessage type pieces.flatten) : ∃ xs d, pieces = xs ++ [d] := by
  rcases List.eq_nil_or_concat' pieces with rfl | hsnoc
  · -- without bytes no head ends
    exfalso
    have hhead := hmsg.head
    revert hhead
    cases type <;> decide
  · exact hsnoc

/-- **A message that no piece cuts in the URL, in a header name or in a header value leaves the
parser as one call does**: its error and its finished flag, and the request or the response. -/
theorem pieces_agree (hne : ∀ x ∈ pieces, x ≠ []) :
    (IsMessage .request pieces.flatten → CutBetween .request pieces →
      HttpRequestParser.new.feed pieces =
        (HttpRequestParser.new.execute pieces.flatten).2) ∧
    (IsMessage .response pieces.flatten → CutBetween .response pieces →
      HttpResponseParser.new.feed pieces =
        (HttpResponseParser.new.execute pieces.flatten).2) := by
  constructor
  · intro hmsg hcut
    obtain ⟨xs, d, rfl⟩ := exists_snoc hmsg
    exact feed_eq_one_call requestCallbacks_gathers hmsg hne hcut _
  · intro hmsg hcut
    obtain ⟨xs, d, rfl⟩ := exists_snoc hmsg
    exact feed_eq_one_call responseCallbacks_gathers hmsg hne hcut _

/-- A request with a body and a response, cut behind the first line, in the status and in the
body. -/
theorem pieces_agree_between :
    (HttpRequestParser.new.feed [ascii "PUT /a HTTP/1.1\r\n", ascii "Content-Length: 2\r\n\r\nb",
        ascii "c"] =
      (HttpRequestParser.new.execute
        (ascii "PUT /a HTTP/1.1\r\nContent-Length: 2\r\n\r\nbc")).2) ∧
    HttpResponseParser.new.feed [ascii "HTTP/1.1 200 O", ascii "K\r\nContent-Length: 2\r\n\r\nb",
        ascii "c"] =
      (HttpResponseParser.new.execute
        (ascii "HTTP/1.1 200 OK\r\nContent-Length: 2\r\n\r\nbc")).2 := by
  constructor
  · exact (pieces_agree (by decide)).1 (by decide +kernel) (by decide +kernel)
  · exact (pieces_agree (by decide)).2 (by decide +kernel) (by decide +kernel)

/-- A request that is cut in its URL, and a response that is cut in a header value. -/
theorem pieces_disagree :
    (∃ pieces : List Bytes, (∀ x ∈ pieces, x ≠ []) ∧ IsMessage .request pieces.flatten ∧
      (HttpRequestParser.new.feed pieces).owner.data.path ≠
        (HttpRequestParser.new.execute pieces.flatten).2.owner.data.path) ∧
    ∃ pieces : List Bytes, (∀ x ∈ pieces, x ≠ []) ∧ IsMessage .response pieces.flatten ∧
      (HttpResponseParser.new.feed pieces).owner.data.headers ≠
        (HttpResponseParser.new.execute pieces.flatten).2.owner.data.headers := by
  constructor
  · exact ⟨[ascii "GET /a", ascii "/b HTTP/1.1\r\n\r\n"], by decide, by decide +kernel,
      by decide +kernel⟩
  · exact ⟨[ascii "HTTP/1.1 204 \r\nA: b", ascii "c\r\n\r\n"], by decide, by decide +kernel,
      by decide +kernel⟩

end Luwu.Http
