import Luwu.Http.Bodies
import Luwu.Http.RoundTrip
import Luwu.HttpParser.Grammar

/-!
# The limit on bodies

`http.request.max_body_size` and `http.response.max_body_size` are read into variables that
`GetHttpRequestMaxBodySize` and `GetHttpResponseMaxBodySize` return.  Nothing calls these, so that
it is up to the peer how long a body gets.  `measure` reads the bytes of the peer as the parsers
do, and adds up the lengths that they give: `Content-Length` and the sizes of chunks.
-/

namespace Luwu.Http

open Lib HttpParser Inter

/-! ## The lengths that the peer gives -/

structure Declared where
  /-- The lengths of bodies and chunks; of a body that goes on to the end of the stream, the bytes
  so far. -/
  announced : Nat := 0
  /-- The body goes on to the end of the stream. -/
  toEof : Bool := false
deriving DecidableEq

/-- Callbacks that add up the lengths.  `accepts` tells which URLs are not refused. -/
def lengths (accepts : Bytes → Bool) : HttpParser.Event → Owner Declared → Int × Owner Declared
  | (.messageBegin, _), o => (0, o)
  | (.data .url buf, _), o => (if accepts buf then 0 else 1, o)
  | (.data .status _, _), o => (0, o)
  | (.data .headerField _, _), o => (0, o)
  | (.data .headerValue _, _), o => (0, o)
  | (.data .body buf, _), o =>
    let rest := if o.data.toEof then buf.length else 0
    (0, { o with data := { o.data with announced := o.data.announced + rest } })
  | (.headersComplete, p), o =>
    let announced := o.data.announced + p.bodyLength.getD 0
    (0, { o with data := { announced, toEof := p.bodyLength = none } })
  | (.messageComplete, _), o => (0, { o with finished := true })
  | (.chunkHeader, p), o =>
    (0, { o with data := { o.data with announced := o.data.announced + p.contentLength } })
  | (.chunkComplete, _), o => (0, o)

/-- A call of the parser with these callbacks. -/
def measure (accepts : Bytes → Bool) (checkUpgrade : Bool) (q : MessageParser Declared)
    (data : Bytes) : Nat × MessageParser Declared :=
  let e := HttpParser.execute (lengths accepts) q.parser data q.owner
  let p := e.2.1
  let error :=
    if checkUpgrade ∧ p.upgrade then Errno.unknown
    else if p.errno ≠ .ok then p.errno
    else q.error
  (e.1, { parser := p, owner := e.2.2, error })

/-- What has come of the lengths given. -/
def received (q : MessageParser Declared) : Nat :=
  q.owner.data.announced - q.parser.outstanding

section

variable (accepts : Bytes → Bool) (type : ParserType) (checkUpgrade terminated : Bool)
  (bufferSize : Nat) (input : Nat → UInt8) (replies : Nat → Reply)

end

/-! ## A parser beside the one that measures -/

section

variable {μ : Type} {c : Callbacks μ} {body : μ → Bytes} {accepts : Bytes → Bool}
  {checkUpgrade terminated : Bool} {bufferSize : Nat} {input : Nat → UInt8} {replies : Nat → Reply}

/-- In the phase `ph` the lengths given bound the body, with what is still to come of it. -/
structure Bounded (body : μ → Bytes) (ph : Phase) (x : Owner μ × Owner Declared) : Prop where
  bound : (body x.1.data).length + ph.left ≤ x.2.data.announced
  toEof : ph.BodyIs none → x.2.data.toEof = true
  finished : x.2.finished = x.1.finished

/-- The two handlers refuse the same URLs. -/
def SameAnswers (c : Callbacks μ) (accepts : Bytes → Bool) : Prop :=
  ∀ buf d, (c.url buf d).isSome = accepts buf

theorem SameAnswers.answer (h : SameAnswers c accepts) (e : HttpParser.Event) (o : Owner μ)
    (o' : Owner Declared) : (lengths accepts e o').1 = (c.handle e o).1 := by
  obtain ⟨cb, p⟩ := e
  cases cb with
  | data span buf =>
    cases span with
    | url =>
      unfold lengths Callbacks.handle
      dsimp only
      rw [← h buf o.data]
      cases c.url buf o.data <;> rfl
    | _ => rfl
  | _ => rfl

theorem handle_finished (c : Callbacks μ) (accepts : Bytes → Bool) {e : HttpParser.Event}
    {o : Owner μ} {o' : Owner Declared} (h : o'.finished = o.finished) :
    (lengths accepts e o').2.finished = (c.handle e o).2.finished := by
  obtain ⟨cb, p⟩ := e
  cases cb with
  | data span buf =>
    cases span with
    | url =>
      unfold lengths Callbacks.handle
      dsimp only
      split <;> exact h
    | _ => exact h
  | messageComplete => rfl
  | _ => exact h

theorem chunkPhase_left (p : Parser) :
    p.chunkPhase.left = p.contentLength ∧ ¬ p.chunkPhase.BodyIs none := by
  unfold Parser.chunkPhase
  split
  · next h => exact ⟨h.symm, by simp [Phase.BodyIs]⟩
  · exact ⟨rfl, by simp [Phase.BodyIs]⟩

/-- The callbacks that give no length and report no part of a body. -/
theorem lengths_quiet (accepts : Bytes → Bool) {cb : Callback} (hheaders : cb ≠ .headersComplete)
    (hchunk : cb ≠ .chunkHeader) (hbody : ∀ bs, cb ≠ .data .body bs) (p : Parser)
    (o : Owner Declared) : (lengths accepts (cb, p) o).2.data = o.data ∧ payload (cb, p) = [] := by
  cases cb with
  | data span buf =>
    cases span with
    | body => exact absurd rfl (hbody buf)
    | _ => exact ⟨rfl, rfl⟩
  | headersComplete => exact absurd rfl hheaders
  | chunkHeader => exact absurd rfl hchunk
  | _ => exact ⟨rfl, rfl⟩

/-- Every callback that the order allows keeps the bound. -/
theorem bounded_next (hc : BodyOf c body) {ph ph' : Phase} {e : HttpParser.Event}
    {x : Owner μ × Owner Declared} (hnext : ph.next e = some ph') (hx : Bounded body ph x) :
    Bounded body ph' (pair c.handle (lengths accepts) e x).2 := by
  obtain ⟨cb, p⟩ := e
  obtain ⟨o, o'⟩ := x
  obtain ⟨hbound, heof, hfinished⟩ := hx
  dsimp only at hbound heof hfinished
  have hbody := congrArg List.length (hc.handle (cb, p) o)
  rw [List.length_append] at hbody
  have hdone := handle_finished c accepts (e := (cb, p)) hfinished
  rcases next_cases hnext with
    ⟨rfl, rfl⟩ | ⟨rfl, rfl⟩ | ⟨bs, rfl, hcase⟩ | ⟨⟨hheaders, hchunk, hother⟩, hleft, hno⟩
  · -- what is left of the body is its length
    refine ⟨?_, fun hb => ?_, hdone⟩
    · show (body (c.handle (.headersComplete, p) o).2.data).length + p.bodyLength.getD 0 ≤
        o'.data.announced + p.bodyLength.getD 0
      rw [hbody, show payload (.headersComplete, p) = [] from rfl, List.length_nil]
      omega
    · have hnone : p.bodyLength = none := by simpa [Phase.BodyIs] using hb
      exact decide_eq_true hnone
  · obtain ⟨hleft, hno⟩ := chunkPhase_left p
    refine ⟨?_, fun hb => absurd hb hno, hdone⟩
    show (body (c.handle (.chunkHeader, p) o).2.data).length + _ ≤
      o'.data.announced + p.contentLength
    rw [hbody, hleft, show payload (.chunkHeader, p) = [] from rfl, List.length_nil]
    omega
  · have hannounced : (lengths accepts (.data .body bs, p) o').2.data.announced =
        o'.data.announced + if o'.data.toEof then bs.length else 0 := rfl
    rw [show payload (.data .body bs, p) = bs from rfl] at hbody
    rcases hcase with ⟨hb, rfl⟩ | ⟨hleft, hno⟩
    · -- of a body up to the end of the stream the bytes are counted
      refine ⟨?_, fun _ => heof hb, hdone⟩
      show _ + 0 ≤ (lengths accepts (.data .body bs, p) o').2.data.announced
      rw [hannounced, if_pos (heof hb)]
      show (body (c.handle (.data .body bs, p) o).2.data).length + 0 ≤ _
      omega
    · refine ⟨?_, fun hb => absurd hb hno, hdone⟩
      show (body (c.handle (.data .body bs, p) o).2.data).length + _ ≤
        (lengths accepts (.data .body bs, p) o').2.data.announced
      rw [hannounced]
      omega
  · obtain ⟨hsame, hnil⟩ := lengths_quiet accepts hheaders hchunk hother p o'
    refine ⟨?_, fun hb => absurd hb hno, hdone⟩
    show (body (c.handle (cb, p) o).2.data).length + _ ≤
      (lengths accepts (cb, p) o').2.data.announced
    rw [hnil, List.length_nil] at hbody
    rw [hsame, hleft]
    omega

/-! ## Calls side by side -/

/-- The parser of a message, and the one that measures. -/
structure Beside (body : μ → Bytes) (q : MessageParser μ) (q' : MessageParser Declared) : Prop where
  parser : q'.parser = q.parser
  error : q'.error = q.error
  told : Told (Bounded body) (q.parser, q.owner, q'.owner)

theorem Beside.finished {q : MessageParser μ} {q' : MessageParser Declared} (h : Beside body q q') :
    q'.owner.finished = q.owner.finished := by
  obtain ⟨ph, hbounded, -⟩ := h.told
  exact hbounded.finished

/-- The body is bounded by what has been received of the lengths given. -/
theorem received_of_told {p : Parser} {o : Owner μ} {o' : Owner Declared} {error : Errno}
    (h : Told (Bounded body) (p, o, o')) :
    (body o.data).length ≤ received { parser := p, owner := o', error } := by
  obtain ⟨ph, hbounded, hfits⟩ := h
  have hle := outstanding_le_left hfits
  have hbound := hbounded.bound
  dsimp only at hle hbound
  unfold received
  dsimp only
  omega

/-- A call with both handlers is a call with each of them. -/
theorem execute_pair (hsame : SameAnswers c accepts) (p : Parser) (d : Bytes) (o : Owner μ)
    (o' : Owner Declared) :
    HttpParser.execute (pair c.handle (lengths accepts)) p d (o, o') =
        ((HttpParser.execute c.handle p d o).1, (HttpParser.execute c.handle p d o).2.1,
          (HttpParser.execute c.handle p d o).2.2,
          (HttpParser.execute (lengths accepts) p d o').2.2) ∧
      (HttpParser.execute (lengths accepts) p d o').1 = (HttpParser.execute c.handle p d o).1 ∧
      (HttpParser.execute (lengths accepts) p d o').2.1 =
        (HttpParser.execute c.handle p d o).2.1 := by
  unfold HttpParser.execute
  by_cases he : p.errno ≠ .ok
  · rw [if_pos he, if_pos he, if_pos he]
    exact ⟨rfl, rfl, rfl⟩
  · rw [if_neg he, if_neg he, if_neg he]
    by_cases hd : d = []
    · rw [if_pos hd, if_pos hd, if_pos hd]
      obtain ⟨hpair, hfst⟩ := run_pair hsame.answer (executeEof (Scan.enter p)) o o'
      rw [hpair]
      generalize (executeEof (Scan.enter p)).run c.handle o = r at hfst ⊢
      generalize (executeEof (Scan.enter p)).run (lengths accepts) o' = r' at hfst ⊢
      obtain ⟨⟨n, s⟩ | ⟨u, s⟩, t⟩ := r
      · obtain ⟨end', t'⟩ := r'
        cases hfst
        exact ⟨rfl, rfl, rfl⟩
      · obtain ⟨end', t'⟩ := r'
        cases hfst
        exact ⟨rfl, rfl, rfl⟩
    · rw [if_neg hd, if_neg hd, if_neg hd]
      obtain ⟨hpair, hfst⟩ := run_pair hsame.answer (executeBody d (Scan.enter p)) o o'
      rw [hpair]
      generalize (executeBody d (Scan.enter p)).run c.handle o = r at hfst ⊢
      generalize (executeBody d (Scan.enter p)).run (lengths accepts) o' = r' at hfst ⊢
      obtain ⟨⟨n, s⟩ | ⟨u, s⟩, t⟩ := r
      · obtain ⟨end', t'⟩ := r'
        cases hfst
        exact ⟨rfl, rfl, rfl⟩
      · obtain ⟨end', t'⟩ := r'
        cases hfst
        exact ⟨rfl, rfl, rfl⟩

/-- Behind a call the bound holds again, unless the call has reported the end of the stream as the
end of the message. -/
theorem told_pair (hc : BodyOf c body) (accepts : Bytes → Bool) {p : Parser} (d : Bytes)
    {x : Owner μ × Owner Declared} (h : Told (Bounded body) (p, x)) :
    Told (Bounded body) (HttpParser.execute (pair c.handle (lengths accepts)) p d x).2 ∨
      (HttpParser.execute (pair c.handle (lengths accepts)) p d x).2.1.outstanding = 0 ∧
        (∃ ph, Bounded body ph (HttpParser.execute (pair c.handle (lengths accepts)) p d x).2.2) ∧
        (HttpParser.execute (pair c.handle (lengths accepts)) p d x).2.2.1.finished = true := by
  have hI : ∀ ph e ph' t, Phase.next ph e = some ph' → Bounded body ph t →
      Bounded body ph' (pair c.handle (lengths accepts) e t).2 :=
    fun ph e ph' t => bounded_next hc
  by_cases hd : d = []
  · subst hd
    obtain ⟨ph, hph⟩ := HttpParser.execute_eof hI h
    rcases execute_eof_cases (pair c.handle (lengths accepts)) p x with hsame | herr | ⟨hst, heq⟩
    · left
      rw [hsame]
      exact h
    · exact .inl ⟨ph, hph, fun hok => absurd hok herr⟩
    · refine .inr ⟨?_, ⟨ph, hph⟩, ?_⟩
      · rw [heq, Parser.outstanding, if_neg]
        rintro ⟨-, hstate | hstate⟩
        · cases hst.symm.trans hstate
        · cases hst.symm.trans hstate
      · rw [heq]
        rfl
  · exact .inl (execute_told hI hd h)

/-- What a call makes of the parsers. -/
structure CalledBeside (body : μ → Bytes) (e : Nat × MessageParser μ)
    (e' : Nat × MessageParser Declared) : Prop where
  parsed : e'.1 = e.1
  error : e'.2.error = e.2.error
  finished : e'.2.owner.finished = e.2.owner.finished
  bound : (body e.2.owner.data).length ≤ received e'.2
  beside : e.2.owner.finished = false → Beside body e.2 e'.2

theorem Beside.execute (hc : BodyOf c body) (hsame : SameAnswers c accepts) {q : MessageParser μ}
    {q' : MessageParser Declared} (h : Beside body q q') (checkUpgrade : Bool) (data : Bytes) :
    CalledBeside body (MessageParser.execute c checkUpgrade q data)
      (measure accepts checkUpgrade q' data) := by
  obtain ⟨hpair, hparsed, hparser⟩ := execute_pair hsame q.parser data q.owner q'.owner
  have htold := told_pair hc accepts data h.told
  rw [hpair] at htold
  dsimp only at htold
  unfold MessageParser.execute measure
  rw [h.parser, h.error]
  dsimp only
  generalize HttpParser.execute c.handle q.parser data q.owner = r at hparsed hparser htold ⊢
  generalize hr' : HttpParser.execute (lengths accepts) q.parser data q'.owner = r'
  rw [hr'] at hparsed hparser htold
  obtain ⟨n, p, o⟩ := r
  obtain ⟨n', p', o'⟩ := r'
  dsimp only at hparsed hparser htold ⊢
  subst hparsed
  subst hparser
  rcases htold with htold | ⟨hzero, ⟨ph, hbounded⟩, hfinished⟩
  · obtain ⟨ph, hbounded, -⟩ := id htold
    exact ⟨rfl, rfl, hbounded.finished, received_of_told htold, fun _ => ⟨rfl, rfl, htold⟩⟩
  · refine ⟨rfl, rfl, hbounded.finished, ?_, fun hno => ?_⟩
    · have hbound := hbounded.bound
      dsimp only at hbound
      unfold received
      dsimp only
      omega
    · rw [hfinished] at hno
      cases hno

/-! ## Runs side by side -/

section

variable (hc : BodyOf c body) {q₀ : MessageParser μ} (hempty : body q₀.owner.data = []) {n : Nat}
include hc hempty

end

end

/-! ## The limit -/

/-- A request that comes in one read is returned with its body, however long that is. -/
theorem recvRequest_whole {w : WireRequest} (hw : w.WellFormed) (hfits : w.Fits)
    (hread : ∀ e ∈ w.headers, Readable e.2) (hup : ¬ AsksUpgrade w.headers) {bufferSize : Nat}
    (hsize : bufferSize < 2 ^ 64) (hroom : w.bytes.length ≤ bufferSize) {input : Nat → UInt8}
    (hinput : nextBytes input 0 w.bytes.length = w.bytes) {replies : Nat → Reply}
    (hreply : replies 0 = .moved (w.bytes.length - 1)) :
    ∃ q, (HttpSession.recvRequest bufferSize input replies 1).state = .finished q ∧
      q.owner.data.body = w.body := by
  have hpos := List.length_pos_iff.mpr w.bytes_ne_nil
  obtain ⟨n, p, filed, hexec, hn, -, hplain⟩ := WireRequest.execute_bytes hw hfits hread
  have hcount : min (w.bytes.length - 1 + 1) (bufferSize - ([] : Bytes).length) =
      w.bytes.length := by
    rw [List.length_nil]
    omega
  have hempty : ([] : Bytes).length < bufferSize := hpos.trans_le hroom
  refine ⟨(HttpRequestParser.new.execute w.bytes).2, ?_, by rw [hexec]; rfl⟩
  show (receiveTurn HttpRequestParser.execute false bufferSize input
    { state := .reading HttpRequestParser.new [] } HttpRequestParser.new [] (replies 0)).state = _
  rw [hreply, receiveTurn_moved hsize hempty, hcount]
  dsimp only
  rw [List.nil_append, hinput]
  unfold afterParse
  rw [hexec, hn, List.drop_length, hplain hup, if_neg (by
    intro herror
    exact herror rfl), if_neg (by
    rw [List.length_nil]
    omega), if_pos rfl]

/-- No limit stops such a request. -/
theorem not_keepsLimit_of_long {w : WireRequest} (hw : w.WellFormed) (hfits : w.Fits)
    (hread : ∀ e ∈ w.headers, Readable e.2) (hup : ¬ AsksUpgrade w.headers) {bufferSize : Nat}
    (hsize : bufferSize < 2 ^ 64) (hroom : w.bytes.length ≤ bufferSize) {input : Nat → UInt8}
    (hinput : nextBytes input 0 w.bytes.length = w.bytes) {replies : Nat → Reply}
    (hreply : replies 0 = .moved (w.bytes.length - 1)) {maxBody : Nat}
    (hlong : maxBody < w.body.length) :
    ¬ KeepsLimit requestCallbacks false bufferSize input replies
      (HttpSession.recvRequest bufferSize input replies) HttpRequest.body maxBody := by
  intro h
  obtain ⟨q, hstate, hbody⟩ := recvRequest_whole hw hfits hread hup hsize hroom hinput hreply
  have hle := h.returned 1 q hstate
  rw [hbody] at hle
  omega

end Luwu.Http
