import Luwu.HttpParser.Loop

/-!
# The bundled http_parser: calls that end in the middle of a message

A message may reach `http_parser_execute` in pieces.  Where a piece ends outside the spans of the
URL, the field names and the field values, the calls make the callbacks that one call would make,
except that the body and the status line are reported in parts.  `Sim` relates a call that is still
running to the calls that have been cut: they are in the same state, and their handlers hold data
that becomes the same once the open span is reported.  A handler must not care about how the body
and the status line are parted, and may refuse a URL and nothing else (`Gathers`).
-/

namespace Luwu.HttpParser

open Lib InterM Inter

variable {τ : Type} {h : Event → τ → Int × τ} {s s' : Scan} {t t' : τ} {ch : UInt8}

/-- The handler appends the parts of a body, and of a status line it takes only the status.  The
only callback that it may fail is the one for a URL. -/
structure Gathers (h : Event → τ → Int × τ) : Prop where
  refuses : ∀ e t, (h e t).1 ≠ 0 → ∃ bs, e.1 = .data .url bs
  body_nil : ∀ p t, (h (.data .body [], p) t).2 = t
  body_append : ∀ bs bs' p p' p'' t,
    (h (.data .body bs', p') (h (.data .body bs, p) t).2).2 = (h (.data .body (bs ++ bs'), p'') t).2
  status_again : ∀ bs bs' bs'' p p' t, p.statusCode = p'.statusCode →
    (h (.data .status bs, p) (h (.data .status bs', p') t).2).2 = (h (.data .status bs'', p) t).2

theorem Gathers.accepts (hg : Gathers h) {e : Event} (he : ∀ bs, e.1 ≠ .data .url bs) (t : τ) :
    (h e t).1 = 0 := by
  by_contra hne
  obtain ⟨bs, hbs⟩ := hg.refuses e t hne
  exact he bs hbs

theorem Gathers.body_ok (hg : Gathers h) (bs : Bytes) (p : Parser) (t : τ) :
    (h (.data .body bs, p) t).1 = 0 := hg.accepts (by simp) t

theorem Gathers.status_ok (hg : Gathers h) (bs : Bytes) (p : Parser) (t : τ) :
    (h (.data .status bs, p) t).1 = 0 := hg.accepts (by simp) t

/-- Callbacks without a URL among them succeed. -/
theorem Gathers.answers (hg : Gathers h) {es : List Event}
    (hes : ∀ bs p, (.data .url bs, p) ∉ es) (t : τ) : Answers h 0 es t := by
  induction es generalizing t with
  | nil => exact trivial
  | cons e es ih =>
    refine ⟨hg.accepts ?_ t, ih (fun bs p hmem => hes bs p (List.mem_cons_of_mem e hmem)) _⟩
    intro bs hbs
    exact hes bs e.2 (by rw [← hbs]; exact List.mem_cons_self)

/-- The mark of the body: not set, or set with these bytes. -/
inductive BodyMark : Option (Span × Bytes) → Bytes → Prop where
  | unset : BodyMark none []
  | set (bs : Bytes) : BodyMark (some (.body, bs)) bs

theorem BodyMark.setMark {m : Option (Span × Bytes)} {bs : Bytes} (hm : BodyMark m bs) :
    (if m.map Prod.fst = some Span.body then m else some (.body, [])) = some (.body, bs) := by
  cases hm <;> rfl

/-- One call that is at `s` with the data `t`, and cut calls that are at `s'` with `t'`.  They
differ only where the call goes on. -/
inductive Sim (h : Event → τ → Int × τ) : Scan → τ → Scan → τ → Prop where
  | same (s : Scan) (t : τ) : Sim h s t s t
  | body {s : Scan} {t t' : τ} {m' : Option (Span × Bytes)} {bs bs' : Bytes}
      (hr : s.returned = false) (hst : s.parser.state.inBody) (hm : BodyMark s.mark bs)
      (hm' : BodyMark m' bs')
      (hdata : ∀ p p' more, (h (.data .body (bs ++ more), p) t).2 =
        (h (.data .body (bs' ++ more), p') t').2) :
      Sim h s t { s with mark := m' } t'
  | status {s : Scan} {t t' : τ} {bs bs' : Bytes} (hr : s.returned = false)
      (hst : s.parser.state = .resStatus) (hm : s.mark = some (.status, bs))
      (hdata : ∀ p b b', p.statusCode = s.parser.statusCode →
        (h (.data .status b, p) t).2 = (h (.data .status b', p) t').2) :
      Sim h s t { s with mark := some (.status, bs') } t'

theorem Sim.eq_of_returned (hsim : Sim h s t s' t') (hr : s.returned) : s' = s ∧ t' = t := by
  cases hsim with
  | same => exact ⟨rfl, rfl⟩
  | body hr' =>
    rw [hr'] at hr
    cases hr
  | status hr' =>
    rw [hr'] at hr
    cases hr

theorem Sim.returned_eq (hsim : Sim h s t s' t') : s'.returned = s.returned := by
  cases hsim <;> rfl

/-- How the turns of two related runs may end: both go on, or the one call fails. -/
inductive SimEnd (h : Event → τ → Int × τ) (ch : UInt8) :
    Except (Exit × Scan) (Unit × Scan) × τ → Except (Exit × Scan) (Unit × Scan) × τ → Prop where
  | next {s s' : Scan} {t t' : τ} (hsim : Sim h (s.advance ch) t (s'.advance ch) t') :
      SimEnd h ch (.ok ((), s), t) (.ok ((), s'), t')
  | fail {es : Exit × Scan} {t : τ} {r' : Except (Exit × Scan) (Unit × Scan) × τ} :
      SimEnd h ch (.error es, t) r'

theorem SimEnd.of_eq {r : Except (Exit × Scan) (Unit × Scan) × τ} : SimEnd h ch r r := by
  obtain ⟨es | ⟨⟨⟩, s⟩, t⟩ := r
  · exact .fail
  · exact .next (.same _ _)

/-! ## Bodies -/

theorem turn_of_body (hst : s.parser.state.inBody) : turn ch s = dispatch s.parser.state ch s := by
  have : s.parser.state.parsingHeader = false := by
    revert hst
    cases s.parser.state <;> decide
  simp [turn, this]

/-- A byte of the body that leaves the mark set. -/
theorem SimEnd.stay {p : Parser} {bs bs' : Bytes} (hr : s.returned = false)
    (hp : p.state.inBody)
    (hdata : ∀ p p' more, (h (.data .body (bs ++ more), p) t).2 =
      (h (.data .body (bs' ++ more), p') t').2) :
    SimEnd h ch (.ok ((), { s with parser := p, mark := some (.body, bs) }), t)
      (.ok ((), { s with parser := p, mark := some (.body, bs') }), t') := by
  have hdata' : ∀ p p' more, (h (.data .body (bs ++ [ch] ++ more), p) t).2 =
      (h (.data .body (bs' ++ [ch] ++ more), p') t').2 := by
    intro p p' more
    rw [List.append_assoc, List.append_assoc]
    exact hdata p p' ([ch] ++ more)
  exact .next (.body hr hp (.set _) (.set _) hdata')

/-- Closing the span of the body hands over what has been read of it, if anything. -/
theorem run_callbackData_body (hg : Gathers h) {bs : Bytes} (hm : BodyMark s.mark bs) (er : Exit) :
    (callbackData .body er [] s).run h t =
      (.ok ((), { s with mark := none }), (h (.data .body bs, s.parser) t).2) := by
  obtain ⟨p, m, passed, skip, returned⟩ := s
  cases hm with
  | unset =>
    rw [hg.body_nil]
    rfl
  | set bs => simp [callbackData, callback, hg.body_ok, Inter.run]

theorem bodyIdentity_more {bs : Bytes} (hm : BodyMark s.mark bs)
    (hc : s.parser.contentLength - 1 ≠ 0) :
    bodyIdentity ch s =
      .ret () { s with
        parser := { s.parser with contentLength := s.parser.contentLength - 1 }
        mark := some (.body, bs) } := by
  simp [bodyIdentity, setMark, setParser, hm.setMark, hc]

theorem bodyIdentity_last (hg : Gathers h) {bs : Bytes} (hm : BodyMark s.mark bs)
    (hc : s.parser.contentLength - 1 = 0) :
    (bodyIdentity ch s).run h t =
      (messageDone { s with
        parser := { s.parser with contentLength := 0, state := .messageDone }
        mark := none }).run h
        (h (.data .body (bs ++ [ch]),
          { s.parser with contentLength := 0, state := .messageDone }) t).2 := by
  simp [bodyIdentity, setMark, setParser, updateState, hm.setMark, hc, callbackData, callback,
    Inter.run, hg.body_ok]

/-- The state after a byte of a chunk. -/
def chunkNext (p : Parser) : Parser :=
  { p with
    contentLength := p.contentLength - 1
    state := if p.contentLength - 1 = 0 then .chunkDataAlmostDone else p.state }

theorem chunkData_eq {bs : Bytes} (hm : BodyMark s.mark bs) :
    chunkData s = .ret () { s with parser := chunkNext s.parser, mark := some (.body, bs) } := by
  by_cases hc : s.parser.contentLength - 1 = 0 <;>
    simp [chunkData, chunkNext, setMark, setParser, updateState, hm.setMark, hc]

/-- The end of a chunk: what has been read of its data is reported. -/
theorem chunkDataAlmostDone_run (hg : Gathers h) {bs : Bytes} (hm : BodyMark s.mark bs) :
    (chunkDataAlmostDone CR s).run h t =
      (.ok ((), { s with parser := { s.parser with state := .chunkDataDone }, mark := none }),
        (h (.data .body bs, { s.parser with state := .chunkDataDone }) t).2) := by
  rw [← run_callbackData_body hg (s := { s with
    parser := { s.parser with state := .chunkDataDone } }) hm .after]
  simp [chunkDataAlmostDone, strictCheck, updateState, setParser]

theorem chunkDataAlmostDone_fail (hcr : ch ≠ CR) :
    (chunkDataAlmostDone ch s).run h t =
      (.error (.here, { s with parser := { s.parser with errno := .strict } }), t) := by
  simp [chunkDataAlmostDone, strictCheck, hcr, error, setParser, Inter.run]

theorem turn_sim_body (hg : Gathers h) {m' : Option (Span × Bytes)} {bs bs' : Bytes}
    (hr : s.returned = false) (hst : s.parser.state.inBody) (hm : BodyMark s.mark bs)
    (hm' : BodyMark m' bs')
    (hdata : ∀ p p' more, (h (.data .body (bs ++ more), p) t).2 =
      (h (.data .body (bs' ++ more), p') t').2) :
    SimEnd h ch ((turn ch s).run h t) ((turn ch { s with mark := m' }).run h t') := by
  rw [turn_of_body hst, turn_of_body (s := { s with mark := m' }) hst]
  cases hcase : s.parser.state <;> first | (rw [hcase] at hst; cases hst; done) | skip
  case chunkData =>
    simp only [dispatch]
    rw [chunkData_eq hm, chunkData_eq (s := { s with mark := m' }) hm']
    refine .stay hr ?_ hdata
    unfold chunkNext
    rw [hcase]
    split <;> rfl
  case chunkDataAlmostDone =>
    simp only [dispatch]
    by_cases hcr : ch = CR
    · -- the span ends: what the two runs report of it adds up to the same
      subst hcr
      rw [chunkDataAlmostDone_run hg hm,
        chunkDataAlmostDone_run hg (s := { s with mark := m' }) hm']
      have := hdata { s.parser with state := .chunkDataDone }
        { s.parser with state := .chunkDataDone } []
      rw [List.append_nil, List.append_nil] at this
      rw [this]
      exact .of_eq
    · rw [chunkDataAlmostDone_fail hcr]
      exact .fail
  case bodyIdentity =>
    simp only [dispatch]
    by_cases hc : s.parser.contentLength - 1 = 0
    · -- the last byte belongs to the span, and the end of the message follows
      rw [bodyIdentity_last hg hm hc, bodyIdentity_last hg (s := { s with mark := m' }) hm' hc,
        hdata _ { s.parser with contentLength := 0, state := .messageDone }]
      exact .of_eq
    · rw [bodyIdentity_more hm hc, bodyIdentity_more (s := { s with mark := m' }) hm' hc]
      exact .stay hr (by rw [hcase]; rfl) hdata
  case bodyIdentityEof =>
    have hrun (s : Scan) {bs : Bytes} (hm : BodyMark s.mark bs) :
        setMark .body s = .ret () { s with mark := some (.body, bs) } := by
      simp [setMark, hm.setMark]
    simp only [dispatch]
    rw [hrun s hm, hrun { s with mark := m' } hm']
    exact .stay (p := s.parser) hr (by rw [hcase]; rfl) hdata

/-! ## Status lines -/

/-- The parser after `COUNT_HEADER_SIZE (1)`. -/
def countByte (p : Parser) : Parser := { p with nread := (p.nread + 1) % 2 ^ 32 }

/-- A byte of the headers that no inner loop has reached: it is counted, and the state's code
runs. -/
theorem turn_counted (hst : s.parser.state.parsingHeader) (hp : s.passed = none)
    (hfit : (countByte s.parser).nread ≤ maxHeaderSize) :
    turn ch s = dispatch s.parser.state ch { s with parser := countByte s.parser } := by
  have hfit' : ¬ maxHeaderSize < (s.parser.nread + 1) % 4294967296 := Nat.not_lt.mpr hfit
  simp [turn, hst, hp, countHeaderSize, setParser, hfit', countByte]

theorem turn_overflow (hst : s.parser.state.parsingHeader) (hp : s.passed = none)
    (hfit : ¬ (countByte s.parser).nread ≤ maxHeaderSize) :
    turn ch s =
      .exit .here { s with parser := { countByte s.parser with errno := .headerOverflow } } := by
  have hfit' : maxHeaderSize < (s.parser.nread + 1) % 4294967296 := Nat.not_le.mp hfit
  simp [turn, hst, hp, countHeaderSize, setParser, hfit', countByte, error]

theorem run_callbackData_status (hg : Gathers h) {bs : Bytes} (hm : s.mark = some (.status, bs))
    (er : Exit) :
    (callbackData .status er [] s).run h t =
      (.ok ((), { s with mark := none }), (h (.data .status bs, s.parser) t).2) := by
  simp [callbackData, callback, hm, hg.status_ok, Inter.run]

/-- In `s_res_status` the end of the line reports the span. -/
theorem resStatus_sim (hg : Gathers h) {bs bs' : Bytes} (hr : s.returned = false)
    (hst : s.parser.state = .resStatus) (hm : s.mark = some (.status, bs))
    (hdata : ∀ p b b', p.statusCode = s.parser.statusCode →
      (h (.data .status b, p) t).2 = (h (.data .status b', p) t').2) :
    SimEnd h ch ((resStatus ch s).run h t)
      ((resStatus ch { s with mark := some (.status, bs') }).run h t') := by
  have hend (st : State) (s : Scan) (t : τ) {bs : Bytes} (hm : s.mark = some (.status, bs)) :
      ((do updateState st; callbackData .status .after []) s).run h t =
        (.ok ((), { s with parser := { s.parser with state := st }, mark := none }),
          (h (.data .status bs, { s.parser with state := st }) t).2) :=
    run_callbackData_status hg (s := { s with parser := { s.parser with state := st } }) hm .after
  by_cases hcr : ch = CR
  · simp only [resStatus, if_pos hcr]
    rw [hend _ s t hm, hend _ { s with mark := some (.status, bs') } t' rfl,
      hdata { s.parser with state := .resLineAlmostDone } bs bs' rfl]
    exact .of_eq
  · by_cases hlf : ch = LF
    · simp only [resStatus, if_neg hcr, if_pos hlf]
      rw [hend _ s t hm, hend _ { s with mark := some (.status, bs') } t' rfl,
        hdata { s.parser with state := .headerFieldStart } bs bs' rfl]
      exact .of_eq
    · simp only [resStatus, if_neg hcr, if_neg hlf]
      apply SimEnd.next
      have hm' : (s.advance ch).mark = some (.status, bs ++ [ch]) := by simp [Scan.advance, hm]
      exact Sim.status (s := s.advance ch) hr hst hm' hdata

theorem turn_sim_status (hg : Gathers h) {bs bs' : Bytes} (hr : s.returned = false)
    (hst : s.parser.state = .resStatus) (hm : s.mark = some (.status, bs)) (hok : s.Ok)
    (hdata : ∀ p b b', p.statusCode = s.parser.statusCode →
      (h (.data .status b, p) t).2 = (h (.data .status b', p) t').2) :
    SimEnd h ch ((turn ch s).run h t)
      ((turn ch { s with mark := some (.status, bs') }).run h t') := by
  have hph : s.parser.state.parsingHeader := by rw [hst]; rfl
  have hp : s.passed = none := hok.passed (by rw [hst]; decide) (by rw [hst]; decide)
  by_cases hfit : (countByte s.parser).nread ≤ maxHeaderSize
  · rw [turn_counted hph hp hfit,
      turn_counted (s := { s with mark := some (.status, bs') }) hph hp hfit, hst]
    exact resStatus_sim hg (s := { s with parser := countByte s.parser }) hr hst hm hdata
  · rw [turn_overflow hph hp hfit]
    exact .fail

/-- **A byte keeps one call and the cut calls together.** -/
theorem turn_sim (hg : Gathers h) (hok : s.Ok) (hsim : Sim h s t s' t') :
    SimEnd h ch ((turn ch s).run h t) ((turn ch s').run h t') := by
  cases hsim with
  | same => exact .of_eq
  | body hr hst hm hm' hdata => exact turn_sim_body hg hr hst hm hm' hdata
  | status hr hst hm hdata => exact turn_sim_status hg hr hst hm hok hdata

/-! ## URLs that are refused -/

theorem Scan.Ok.reopens_of_url (hok : s.Ok) {bs : Bytes} (hm : s.mark = some (.url, bs)) :
    s.parser.state.reopens = some .url := by
  cases hre : s.parser.state.reopens with
  | none => rcases hok.closed hre with hm' | ⟨-, bs', hm'⟩ <;> rw [hm] at hm' <;> cases hm'
  | some k =>
    obtain ⟨bs', hm'⟩ := hok.opened k hre
    rw [hm] at hm'
    cases hm'
    rfl

/-- Elsewhere than in the body and in the status line, related runs are the same. -/
theorem Sim.eq_of_neither (hsim : Sim h s t s' t') (hbody : s.parser.state.inBody = false)
    (hst : s.parser.state ≠ .resStatus) : s' = s ∧ t' = t := by
  cases hsim with
  | same => exact ⟨rfl, rfl⟩
  | body _ hin =>
    rw [hbody] at hin
    cases hin
  | status _ hres => exact absurd hres hst

theorem Sim.eq_of_url (hsim : Sim h s t s' t') (hre : s.parser.state.reopens = some .url) :
    s' = s ∧ t' = t := by
  have hneither : s.parser.state.inBody = false ∧ s.parser.state ≠ .resStatus := by
    revert hre
    cases s.parser.state <;> decide
  exact hsim.eq_of_neither hneither.1 hneither.2

/-- The end of a URL: a callback that fails ends the call. -/
theorem reqUrl_refused {bs : Bytes} {es : List Event} {s₁ : Scan} (hm : s.mark = some (.url, bs))
    (hturn : (reqUrl ch s).follow 0 = (es, .ok ((), s₁))) (hbad : ¬ Answers h 0 es t) :
    ∃ s₂ t₂, (reqUrl ch s).run h t = (.error (.after, s₂), t₂) ∧ s₂.parser.errno ≠ .ok := by
  by_cases hsp : ch = SP
  · subst hsp
    simp [reqUrl, updateState, setParser, callbackData, hm, callback] at hturn
    simp only [← hturn.1, Answers, and_true] at hbad
    simp [reqUrl, updateState, setParser, callbackData, hm, callback, Inter.run, hbad,
      Callback.errno]
  by_cases hline : ch = CR ∨ ch = LF
  · simp [reqUrl, hsp, hline, setParser, callbackData, hm, callback] at hturn
    simp only [← hturn.1, Answers, and_true] at hbad
    simp [reqUrl, hsp, hline, setParser, callbackData, hm, callback, Inter.run, hbad,
      Callback.errno]
  · -- inside the URL no callback is made
    exfalso
    simp only [reqUrl, if_neg hsp, if_neg hline] at hturn
    have hnone : Post 0 (urlChar ch) s fun es _ _ => es = [] := by simp [urlChar]
    have := InterM.post_iff.mp hnone es () s₁ hturn
    subst this
    exact hbad trivial

theorem dispatch_refused {bs : Bytes} {es : List Event} {s₁ : Scan}
    (hre : s.parser.state.reopens = some .url) (hm : s.mark = some (.url, bs))
    (hturn : (dispatch s.parser.state ch s).follow 0 = (es, .ok ((), s₁)))
    (hbad : ¬ Answers h 0 es t) :
    ∃ s₂ t₂, (dispatch s.parser.state ch s).run h t = (.error (.after, s₂), t₂) ∧
      s₂.parser.errno ≠ .ok := by
  cases hst : s.parser.state <;> rw [hst] at hre hturn <;>
    first | (cases hre; done) | exact reqUrl_refused hm hturn hbad | skip
  all_goals
    exfalso
    have hnone : Post 0 (reqUrlStart ch) s fun es _ _ => es = [] := by
      simp [reqUrlStart, urlChar]
    have := InterM.post_iff.mp hnone es () s₁ hturn
    subst this
    exact hbad trivial

theorem turn_refused {bs : Bytes} {es : List Event} {s₁ : Scan} (hok : s.Ok)
    (hm : s.mark = some (.url, bs)) (hturn : (turn ch s).follow 0 = (es, .ok ((), s₁)))
    (hbad : ¬ Answers h 0 es t) :
    ∃ s₂ t₂, (turn ch s).run h t = (.error (.after, s₂), t₂) ∧ s₂.parser.errno ≠ .ok := by
  have hre := hok.reopens_of_url hm
  have hfacts : s.parser.state.parsingHeader ∧ s.parser.state ≠ .headerField ∧
      s.parser.state ≠ .headerValue := by
    revert hre
    cases s.parser.state <;> decide
  have hp := hok.passed hfacts.2.1 hfacts.2.2
  by_cases hfit : (countByte s.parser).nread ≤ maxHeaderSize
  · rw [turn_counted hfacts.1 hp hfit] at hturn ⊢
    exact dispatch_refused (s := { s with parser := countByte s.parser }) hre hm hturn hbad
  · rw [turn_overflow hfacts.1 hp hfit] at hturn
    cases hturn

/-- A turn on its course: the handler answers its callbacks, or refuses the URL and ends the
call. -/
theorem turn_answers (hg : Gathers h) {es : List Event} {s₁ : Scan} (hok : s.Ok)
    (hturn : (turn ch s).follow 0 = (es, .ok ((), s₁))) (t : τ) :
    Answers h 0 es t ∨ ∃ bs s₂ t₂, s.mark = some (.url, bs) ∧
      (turn ch s).run h t = (.error (.after, s₂), t₂) ∧ s₂.parser.errno ≠ .ok := by
  by_cases ha : Answers h 0 es t
  · exact .inl ha
  · right
    obtain ⟨bs, p, hmem⟩ : ∃ bs p, (.data .url bs, p) ∈ es := by
      by_contra hno
      exact ha (hg.answers (fun bs p hmem => hno ⟨bs, p, hmem⟩) t)
    have hm := (InterM.post_iff.mp (turn_effect hok) es () s₁ hturn).url bs p hmem
    obtain ⟨s₂, t₂, hrun, he⟩ := turn_refused hok hm hturn ha
    exact ⟨bs, s₂, t₂, hm, hrun, he⟩

/-- Where the bytes of a piece lead one call when every callback succeeds, and where they lead the
cut calls and the one call when the URL may be refused. -/
inductive ScanEnd (h : Event → τ → Int × τ) : Ending → Ending × τ → Ending × τ → Prop where
  | next {s s' : Scan} {t t' : τ} (hsim : Sim h s t s' t') :
      ScanEnd h (.ok ((), s)) (.ok ((), s'), t') (.ok ((), s), t)
  | returned (n : Nat) (s : Scan) (t : τ) :
      ScanEnd h (.error (.returned n, s)) (.error (.returned n, s), t) (.error (.returned n, s), t)
  | refused (r : Ending) (n : Nat) {s : Scan} (t : τ) (he : s.parser.errno ≠ .ok) :
      ScanEnd h r (.error (.failed n, s), t) (.error (.failed n, s), t)

/-! ## The bytes of a call -/

/-- **The bytes of a piece keep one call and the cut calls together**, as long as the parser itself
finds no error. -/
theorem scan_sim (hg : Gathers h) {d : Bytes} {es : List Event} {r : Ending} (hok : s.Ok)
    (hsim : Sim h s t s' t') (hscan : (scan d s).follow 0 = (es, r)) (hr : r.Sound) :
    ScanEnd h r ((scan d s').run h t') ((scan d s).run h t) := by
  induction d generalizing s s' t t' es with
  | nil =>
    cases hscan
    exact .next hsim
  | cons ch rest ih =>
    obtain ⟨es₁, s₁, es₂, hturn, hrest, rfl⟩ := scan_cons_sound hscan hr
    have heffect := InterM.post_iff.mp (turn_effect hok) es₁ () s₁ hturn
    rcases turn_answers hg hok hturn t with ha | ⟨bs, s₂, t₂, hm, hrun, he⟩
    · have hend : SimEnd h ch ((turn ch s).run h t) ((turn ch s').run h t') :=
        turn_sim hg hok hsim
      have hrun : (turn ch s).run h t = (.ok ((), s₁), handled h es₁ t) := by
        rw [run_of_answers (a := 0) (by rw [hturn]; exact ha), hturn]
      generalize hr' : (turn ch s').run h t' = r' at hend
      rw [hrun] at hend
      cases hend with
      | @next _ s₁' _ t₁' hsim₁ =>
        rw [run_scan_cons hr', run_scan_cons hrun]
        cases hret : (s₁.advance ch).returned with
        | true =>
          -- the call returns: there the two runs are the same
          obtain ⟨hs, ht⟩ := hsim₁.eq_of_returned hret
          rw [goOn_of_returned hret] at hrest
          cases hrest
          rw [hs, ht, goOn_of_returned hret]
          exact .returned _ _ _
        | false =>
          rw [goOn_of_not_returned hret] at hrest
          rw [goOn_of_not_returned hret, goOn_of_not_returned (hsim₁.returned_eq.trans hret)]
          exact ih (heffect.ok.advance ch) hsim₁ hrest
    · -- only a URL can be refused, and there the two runs are the same
      obtain ⟨rfl, rfl⟩ := hsim.eq_of_url (hok.reopens_of_url hm)
      rw [run_scan_cons_error hrun]
      exact .refused _ _ _ he

/-- The handler answers the callbacks of a piece on its course, or refuses the URL. -/
theorem scan_answers (hg : Gathers h) {d : Bytes} {es : List Event} {r : Ending} (hok : s.Ok)
    (hscan : (scan d s).follow 0 = (es, r)) (hr : r.Sound) (t : τ) :
    Answers h 0 es t ∨ ∃ n s₂ t₂, (scan d s).run h t = (.error (.failed n, s₂), t₂) := by
  induction d generalizing s t es with
  | nil =>
    cases hscan
    exact .inl trivial
  | cons ch rest ih =>
    obtain ⟨es₁, s₁, es₂, hturn, hrest, rfl⟩ := scan_cons_sound hscan hr
    have hok₁ := (InterM.post_iff.mp (turn_effect hok) es₁ () s₁ hturn).ok.advance ch
    -- the handler lets the turn pass, or refuses the URL
    rcases turn_answers hg hok hturn t with ha | ⟨bs, s₂, t₂, -, hrun, -⟩
    · have hrun : (turn ch s).run h t = (.ok ((), s₁), handled h es₁ t) := by
        rw [run_of_answers (a := 0) (by rw [hturn]; exact ha), hturn]
      rw [run_scan_cons hrun, answers_append]
      cases hret : (s₁.advance ch).returned with
      | true =>
        rw [goOn_of_returned hret] at hrest
        cases hrest
        exact .inl ⟨ha, trivial⟩
      | false =>
        rw [goOn_of_not_returned hret] at hrest ⊢
        rcases ih hok₁ hrest (handled h es₁ t) with hok₂ | hfail
        · exact .inl ⟨ha, hok₂⟩
        · exact .inr hfail
    · rw [run_scan_cons_error hrun]
      exact .inr ⟨_, s₂, t₂, rfl⟩

/-! ## The end of a call -/

theorem Scan.Ok.bodyMark (hok : s.Ok) (hst : s.parser.state.inBody) :
    ∃ bs, BodyMark s.mark bs := by
  have hre : s.parser.state.reopens = none := by
    revert hst
    cases s.parser.state <;> decide
  rcases hok.closed hre with hm | ⟨-, bs, hm⟩ <;> rw [hm]
  · exact ⟨[], .unset⟩
  · exact ⟨bs, .set bs⟩

/-- In the body, related runs differ in how much of it has been reported. -/
theorem Sim.of_inBody (hok : s.Ok) (hst : s.parser.state.inBody) (hsim : Sim h s t s' t')
    (hg : Gathers h) :
    ∃ m' bs bs', s' = { s with mark := m' } ∧ BodyMark s.mark bs ∧ BodyMark m' bs' ∧
      ∀ p p' more, (h (.data .body (bs ++ more), p) t).2 =
        (h (.data .body (bs' ++ more), p') t').2 := by
  cases hsim with
  | same =>
    obtain ⟨bs, hm⟩ := hok.bodyMark hst
    refine ⟨s.mark, bs, bs, rfl, hm, hm, ?_⟩
    -- the handler does not look at the parser
    intro p p' more
    rw [← List.nil_append (bs ++ more), ← hg.body_append [] _ p p p', hg.body_nil, List.nil_append]
  | body _ _ hm hm' hdata => exact ⟨_, _, _, rfl, hm, hm', hdata⟩
  | status _ hres =>
    rw [hres] at hst
    cases hst

/-- In the status line as well, and all that matters is the status. -/
theorem Sim.of_status (hok : s.Ok) (hst : s.parser.state = .resStatus) (hsim : Sim h s t s' t')
    (hg : Gathers h) :
    ∃ bs bs', s' = { s with mark := some (.status, bs') } ∧ s.mark = some (.status, bs) ∧
      ∀ p b b', p.statusCode = s.parser.statusCode →
        (h (.data .status b, p) t).2 = (h (.data .status b', p) t').2 := by
  cases hsim with
  | same =>
    obtain ⟨bs, hm⟩ := hok.opened .status (by rw [hst]; rfl)
    refine ⟨bs, bs, by rw [← hm], hm, ?_⟩
    intro p b b' _
    rw [← hg.status_again b [] b' p p t rfl, ← hg.status_again b [] b p p t rfl]
  | body _ hbody =>
    rw [hst] at hbody
    cases hbody
  | status _ _ hm hdata => exact ⟨_, _, rfl, hm, hdata⟩

theorem finish_body (hg : Gathers h) {bs : Bytes} (hp : s.passed = none)
    (hm : BodyMark s.mark bs) :
    (finish s).run h t = (.ok ((), { s with mark := none }),
      (h (.data .body bs, s.parser) t).2) := by
  obtain ⟨p, m, passed, skip, returned⟩ := s
  cases hp
  cases hm with
  | unset =>
    rw [hg.body_nil]
    rfl
  | set bs => simp [finish, callbackData, callback, hg.body_ok, Inter.run, Inter.mapExit]

theorem finish_status (hg : Gathers h) {bs : Bytes} (hp : s.passed = none)
    (hm : s.mark = some (.status, bs)) :
    (finish s).run h t =
      (.ok ((), { s with mark := none }), (h (.data .status bs, s.parser) t).2) := by
  simp [finish, hp, hm, callbackData, callback, hg.status_ok, Inter.run, Inter.mapExit]

theorem finish_none (hp : s.passed = none) (hm : s.mark = none) :
    (finish s).run h t = (.ok ((), s), t) := by
  simp [finish, hp, hm, Inter.run]

/-- **A call that ends between two spans leaves one call and the cut calls together**: what is left
of the body or of the status line is reported now, and the rest of it in the next call. -/
theorem finish_sim_cut (hg : Gathers h) (hok : s.Ok) (hr : s.returned = false)
    (hsim : Sim h s t s' t')
    (hst : s.parser.state.reopens = none ∨ s.parser.state = .resStatus) :
    ∃ s₁' t₁', (finish s').run h t' = (.ok ((), s₁'), t₁') ∧ s₁'.parser = s.parser ∧
      Sim h s t (Scan.enter s.parser) t₁' := by
  have hloop : s.parser.state ≠ .headerField ∧ s.parser.state ≠ .headerValue := by
    revert hst
    cases s.parser.state <;> decide
  have hp := hok.passed hloop.1 hloop.2
  have hk := hok.skip hloop.2
  by_cases hbody : s.parser.state.inBody
  · obtain ⟨m', bs, bs', rfl, hm, hm', hdata⟩ := hsim.of_inBody hok hbody hg
    refine ⟨_, _, finish_body hg hp hm', rfl, ?_⟩
    have henter : Scan.enter s.parser = { s with mark := none } := by
      have hre : s.parser.state.reopens = none := by
        revert hbody
        cases s.parser.state <;> decide
      simp [Scan.enter, hre, hp, hk, hr]
    rw [henter]
    refine .body hr hbody hm .unset ?_
    intro p p' more
    rw [List.nil_append, hg.body_append _ _ _ _ p', hdata]
  by_cases hres : s.parser.state = .resStatus
  · obtain ⟨bs, bs', rfl, hm, hdata⟩ := hsim.of_status hok hres hg
    refine ⟨_, _, finish_status hg hp rfl, rfl, ?_⟩
    have henter : Scan.enter s.parser = { s with mark := some (.status, []) } := by
      simp [Scan.enter, hres, State.reopens, hp, hk, hr]
    rw [henter]
    refine .status hr hres hm ?_
    intro p b b' hp
    rw [hg.status_again b' bs' b' p s.parser t' hp]
    exact hdata p b b' hp
  · -- nothing is left over: the next call starts where this one ends
    have hre := hst.resolve_right hres
    rw [Bool.not_eq_true] at hbody
    obtain ⟨rfl, rfl⟩ := hsim.eq_of_neither hbody hres
    have hm := hok.mark_eq_none hre hbody
    refine ⟨_, _, finish_none hp hm, rfl, ?_⟩
    have henter : Scan.enter s'.parser = s' := by
      obtain ⟨p, m, passed, skip, returned⟩ := s'
      cases hp
      cases hk
      cases hm
      cases hr
      simp only [Scan.enter, Scan.mk.injEq, true_and, and_true]
      rw [show p.state.reopens = none from hre]
      rfl
    rw [henter]
    exact .same _ _

/-- At the end of the message the two report the same. -/
theorem finish_sim_end (hg : Gathers h) (hok : s.Ok) (hsim : Sim h s t s' t') :
    ∃ r' : Ending, (finish s').run h t' = (r', ((finish s).run h t).2) ∧
      r'.scan.parser = (Ending.scan ((finish s).run h t).1).parser := by
  cases hsim with
  | same => exact ⟨_, rfl, rfl⟩
  | @body _ m' bs bs' _ hst hm hm' hdata =>
    have hp : s.passed = none := by
      refine hok.passed ?_ ?_ <;> intro hst' <;> rw [hst'] at hst <;> cases hst
    rw [finish_body hg hp hm, finish_body hg (s := { s with mark := m' }) hp hm']
    have := hdata s.parser s.parser []
    rw [List.append_nil, List.append_nil] at this
    rw [this]
    exact ⟨_, rfl, rfl⟩
  | @status _ bs bs' _ hst hm hdata =>
    have hp : s.passed = none := hok.passed (by rw [hst]; decide) (by rw [hst]; decide)
    rw [finish_status hg hp hm,
      finish_status hg (s := { s with mark := some (.status, bs') }) hp rfl,
      hdata s.parser bs bs' rfl]
    exact ⟨_, rfl, rfl⟩

/-! ## Where a call ends -/

theorem errno_ne_ok (cb : Callback) : cb.errno ≠ .ok := by
  cases cb with
  | data span buf => cases span <;> simp [Callback.errno]
  | _ => decide

/-- The callback of the mark is made, or refused. -/
theorem leftover_run (s : Scan) (h : Event → τ → Int × τ) (t : τ) :
    (Ending.scan ((leftover s).run h t).1).parser.errno ≠ .ok ∨
      ∃ s₁ t₁, (leftover s).run h t = (.ok ((), s₁), t₁) ∧ s₁.parser = s.parser := by
  unfold leftover
  cases hm : s.mark with
  | none => exact .inr ⟨s, t, rfl, rfl⟩
  | some m =>
    by_cases hz : (h (.data m.1 m.2, s.parser) t).1 = 0
    · refine .inr ⟨{ s with mark := none }, (h (.data m.1 m.2, s.parser) t).2, ?_, rfl⟩
      simp [callbackData, callback, hm, hz, Inter.run, Inter.mapExit]
    · left
      simp [callbackData, callback, hm, hz, Inter.run, Inter.mapExit, setParser, Ending.scan,
        errno_ne_ok]

theorem finish_upgrade {es : List Event} {s₂ : Scan}
    (hend : (finish s).follow 0 = (es, .ok ((), s₂))) :
    s₂.parser.upgrade = s.parser.upgrade := by
  obtain ⟨s₁, n, hs₁, hp, -⟩ := finish_parsed hend trivial
  cases hs₁
  rw [hp]

theorem finish_run {es : List Event} {s₂ : Scan}
    (hend : (finish s).follow 0 = (es, .ok ((), s₂))) (h : Event → τ → Int × τ) (t : τ) :
    (Ending.scan ((finish s).run h t).1).parser.errno ≠ .ok ∨
      (Ending.scan ((finish s).run h t).1).parser = s₂.parser := by
  obtain ⟨s₁, n, hs₁, hp, heq⟩ := finish_parsed hend trivial
  cases hs₁
  rw [heq, hp]
  rcases leftover_run { s with parser := { s.parser with nread := n } } h t with
    he | ⟨s₃, t₃, hrun, hp₃⟩
  · exact .inl he
  · right
    rw [hrun]
    exact hp₃

/-- A call that ends without an error has parsed all of its bytes. -/
theorem finish_left (s : Scan) (h : Event → τ → Int × τ) (t : τ) :
    (Ending.scan ((finish s).run h t).1).parser.errno ≠ .ok ∨
      Ending.left ((finish s).run h t).1 = 0 := by
  rcases finish_cases s with ⟨p, he, heq⟩ | ⟨n, heq⟩
  · rw [heq]
    exact .inl he
  · rw [heq]
    rcases leftover_run { s with parser := { s.parser with nread := n } } h t with
      he | ⟨s₁, t₁, hrun, -⟩
    · exact .inl he
    · right
      rw [hrun]
      rfl

/-- **A call that parses its bytes ends where its course ends**, unless the handler refuses the
URL. -/
theorem executeBody_run (hg : Gathers h) {d : Bytes} {es : List Event} {r : Ending} (hok : s.Ok)
    (hcourse : (executeBody d s).follow 0 = (es, r)) (hr : r.Parsed) (t : τ) :
    (Ending.scan ((executeBody d s).run h t).1).parser.errno ≠ .ok ∨
      (Ending.scan ((executeBody d s).run h t).1).parser = r.scan.parser := by
  rcases executeBody_parsed hcourse hr with
    ⟨s₁, hscan, rfl⟩ | ⟨es₁, s₁, es₂, s₂, hscan, hend, -, rfl⟩
  · have hsim := scan_sim hg hok (.same s t) hscan trivial
    rw [executeBody_eq]
    generalize hrun : (scan d s).run h t = out at hsim
    cases hsim with
    | returned =>
      rw [run_bind_of_error hrun]
      exact .inr rfl
    | refused _ _ _ he =>
      rw [run_bind_of_error hrun]
      exact .inl he
  · have hsim := scan_sim hg hok (.same s t) hscan trivial
    rw [executeBody_eq]
    generalize hrun : (scan d s).run h t = out at hsim
    cases hsim with
    | next =>
      rw [run_bind_of_ok hrun]
      exact finish_run hend h _
    | refused _ _ _ he =>
      rw [run_bind_of_error hrun]
      exact .inl he

/-- A call in which the headers do not end leaves the upgrade flag as it is. -/
theorem executeBody_upgrade {d : Bytes} {es : List Event} {r : Ending}
    (he : s.parser.errno = .ok) (hcourse : (executeBody d s).follow 0 = (es, r)) (hr : r.Parsed)
    (hes : ∀ p, (.headersComplete, p) ∉ es) : r.scan.parser.upgrade = s.parser.upgrade := by
  rcases executeBody_parsed hcourse hr with
    ⟨s₁, hscan, rfl⟩ | ⟨es₁, s₁, es₂, s₂, hscan, hend, rfl, rfl⟩
  · exact scan_upgrade he hscan trivial hes
  · have hscan₁ : s₁.parser.upgrade = s.parser.upgrade :=
      scan_upgrade he hscan trivial fun p hp => hes p (List.mem_append_left _ hp)
    rw [← hscan₁]
    exact finish_upgrade hend

/-! ## The pieces of a message -/

/-- What a parser and its owner's data become when the pieces are executed one by one. -/
def feed (h : Event → τ → Int × τ) (pieces : List Bytes) (p : Parser) (t : τ) : Parser × τ :=
  pieces.foldl (fun st d => (execute h st.1 d st.2).2) (p, t)

theorem feed_cons (d : Bytes) (ds : List Bytes) (p : Parser) (t : τ) :
    feed h (d :: ds) p t = feed h ds (execute h p d t).2.1 (execute h p d t).2.2 := rfl

theorem feed_append (xs ys : List Bytes) (p : Parser) (t : τ) :
    feed h (xs ++ ys) p t = feed h ys (feed h xs p t).1 (feed h xs p t).2 := List.foldl_append

theorem feed_of_error {p : Parser} (he : p.errno ≠ .ok) (ds : List Bytes) (t : τ) :
    feed h ds p t = (p, t) := by
  induction ds with
  | nil => rfl
  | cons d ds ih =>
    have hcall : execute h p d t = (0, p, t) := by
      unfold execute
      rw [if_pos he]
    rw [feed_cons, hcall]
    exact ih

/-- A call that one call and the cut calls end with. -/
theorem executeBody_sim (hg : Gathers h) {d : Bytes} {es : List Event} {r : Ending} (hok : s.Ok)
    (hsim : Sim h s t s' t') (hcourse : (executeBody d s).follow 0 = (es, r)) (hr : r.Parsed) :
    ∃ r' : Ending, (executeBody d s').run h t' = (r', ((executeBody d s).run h t).2) ∧
      r'.scan.parser = (Ending.scan ((executeBody d s).run h t).1).parser ∧
      (r'.scan.parser.errno ≠ .ok ∨ r'.left = 0) := by
  -- an exit of the loop is the end of the call
  have hexit {stop : Stop} {s₁ : Scan} {t₁ : τ}
      (h₁ : (scan d s').run h t' = (.error (stop, s₁), t₁))
      (h₂ : (scan d s).run h t = (.error (stop, s₁), t₁))
      (hleft : s₁.parser.errno ≠ .ok ∨ stop.left = 0) :
      ∃ r' : Ending, (executeBody d s').run h t' = (r', ((executeBody d s).run h t).2) ∧
        r'.scan.parser = (Ending.scan ((executeBody d s).run h t).1).parser ∧
        (r'.scan.parser.errno ≠ .ok ∨ r'.left = 0) := by
    rw [executeBody_eq, executeBody_eq, run_bind_of_error h₁, run_bind_of_error h₂]
    exact ⟨_, rfl, rfl, hleft⟩
  have hparsed : Ending.Parsed ((scan d s).follow 0).2 := by
    rcases executeBody_parsed hcourse hr with ⟨s₁, hscan, -⟩ | ⟨es₁, s₁, es₂, s₂, hscan, -⟩
    · rw [hscan]
      exact rfl
    · rw [hscan]
      exact trivial
  have hend := scan_sim hg hok hsim rfl hparsed.sound
  generalize hscan : (scan d s).follow 0 = course at hend hparsed
  obtain ⟨es₁, r₁⟩ := course
  generalize h₁ : (scan d s').run h t' = out₁ at hend
  generalize h₂ : (scan d s).run h t = out₂ at hend
  cases hend with
  | returned => exact hexit h₁ h₂ (.inr hparsed)
  | refused _ _ _ he => exact hexit h₁ h₂ (.inl he)
  | @next _ s₁' _ t₁' hsim₁ =>
    rw [executeBody_eq, executeBody_eq, run_bind_of_ok h₁, run_bind_of_ok h₂]
    obtain ⟨r', hrun, hp⟩ := finish_sim_end hg (scan_ok hok hscan trivial) hsim₁
    have hleft := finish_left s₁' h t₁'
    rw [hrun] at hleft
    exact ⟨r', hrun, hp, hleft⟩

/-- What a call makes of a piece that does not end in a span: it parses all of it and stays with the
one call, unless the URL is refused. -/
theorem execute_sim (hg : Gathers h) {d : Bytes} {es : List Event} {s₁ : Scan} (hd : d ≠ [])
    (hok : s.Ok) (he : s.parser.errno = .ok) (hret : s.returned = false)
    (hsim : Sim h s t (Scan.enter s.parser) t') (hscan : (scan d s).follow 0 = (es, .ok ((), s₁)))
    (hcut : s₁.parser.state.reopens = none ∨ s₁.parser.state = .resStatus) :
    (∃ t₁ t₁', (scan d s).run h t = (.ok ((), s₁), t₁) ∧
        execute h s.parser d t' = (d.length, s₁.parser, t₁') ∧
        Sim h s₁ t₁ (Scan.enter s₁.parser) t₁') ∨
      ∃ n s₂ t₂, (scan d s).run h t = (.error (.failed n, s₂), t₂) ∧ s₂.parser.errno ≠ .ok ∧
        (execute h s.parser d t').2 = (s₂.parser, t₂) := by
  have hok₁ : s₁.Ok := scan_ok hok hscan trivial
  have hret₁ := scan_returned hret hscan
  have hend := scan_sim hg hok hsim hscan trivial
  rw [execute_eq he hd, executeBody_eq]
  generalize h₁ : (scan d (Scan.enter s.parser)).run h t' = out₁ at hend
  generalize (scan d s).run h t = out₂ at hend
  cases hend with
  | next hsim₁ =>
    obtain ⟨s₂', t₂', hfinish, hp, hsim₂⟩ := finish_sim_cut hg hok₁ hret₁ hsim₁ hcut
    refine .inl ⟨_, t₂', rfl, ?_, hsim₂⟩
    rw [run_bind_of_ok h₁, hfinish, ← hp]
    rfl
  | refused _ n t₂ he₂ =>
    refine .inr ⟨n, _, t₂, rfl, he₂, ?_⟩
    rw [run_bind_of_error h₁]
    rfl

/-- Pieces after each of which the call is between two spans: the one call and the cut calls have
come to the same point, unless the URL was refused. -/
theorem feed_prefix (hg : Gathers h) {xs : List Bytes} {es : List Event} {s₁ : Scan}
    (hne : ∀ x ∈ xs, x ≠ []) (hok : s.Ok) (he : s.parser.errno = .ok) (hret : s.returned = false)
    (hsim : Sim h s t (Scan.enter s.parser) t')
    (hscan : (scan xs.flatten s).follow 0 = (es, .ok ((), s₁)))
    (hclean : ∀ zs ys, zs ≠ [] → zs ++ ys = xs → ∀ es₂ s₂,
      (scan zs.flatten s).follow 0 = (es₂, .ok ((), s₂)) →
        s₂.parser.state.reopens = none ∨ s₂.parser.state = .resStatus) :
    (∃ t₁ t₁', (scan xs.flatten s).run h t = (.ok ((), s₁), t₁) ∧
        feed h xs s.parser t' = (s₁.parser, t₁') ∧ Sim h s₁ t₁ (Scan.enter s₁.parser) t₁') ∨
      ∃ n s₂ t₂, (scan xs.flatten s).run h t = (.error (.failed n, s₂), t₂) ∧
        s₂.parser.errno ≠ .ok ∧ feed h xs s.parser t' = (s₂.parser, t₂) := by
  induction xs generalizing s t t' es with
  | nil =>
    cases hscan
    exact .inl ⟨t, t', rfl, rfl, hsim⟩
  | cons d xs ih =>
    rw [List.flatten_cons, scan_append] at hscan ⊢
    obtain ⟨es₂, r₂, hd⟩ : ∃ es₂ r₂, (scan d s).follow 0 = (es₂, r₂) := ⟨_, _, rfl⟩
    rcases r₂ with ⟨stop, s₂⟩ | ⟨⟨⟩, s₂⟩
    · rw [follow_bind_of_error (s := s₂) (by rw [follow_mapExit, hd]; rfl)] at hscan
      cases hscan
    · rw [follow_bind_of_ok (x := ()) (s := s₂) (by rw [follow_mapExit, hd]; rfl)] at hscan
      have hcut := hclean [d] xs (by simp) rfl es₂ s₂ (by simpa using hd)
      rw [feed_cons]
      rcases execute_sim hg (hne d List.mem_cons_self) hok he hret hsim hd hcut with
        ⟨t₂, t₂', hrun, hcall, hsim₂⟩ | ⟨n, s₃, t₃, hrun, he₃, hcall⟩
      · rw [hcall, run_bind_of_ok (x := ()) (s := s₂) (by rw [run_mapExit, hrun]; rfl)]
        refine ih (fun x hx => hne x (List.mem_cons_of_mem d hx)) (scan_ok hok hd trivial)
          (scan_sound he hd trivial) (scan_returned hret hd) hsim₂
          (Prod.ext rfl (Prod.mk.inj hscan).2) ?_
        -- a first part of the pieces left is one of all pieces, without the first
        intro zs ys hzs hsplit es₄ s₄ hscan₄
        refine hclean (d :: zs) ys (by simp) (by rw [List.cons_append, hsplit]) (es₂ ++ es₄) s₄ ?_
        rw [List.flatten_cons, scan_append,
          follow_bind_of_ok (x := ()) (s := s₂) (by rw [follow_mapExit, hd]; rfl), hscan₄]
      · refine .inr ⟨n + xs.flatten.length, s₃, t₃, ?_, he₃, ?_⟩
        · exact run_bind_of_error (s := s₃) (by rw [run_mapExit, hrun]; rfl)
        · rw [hcall, feed_of_error he₃]

theorem feed_snoc (xs : List Bytes) (d : Bytes) (p : Parser) (t : τ) :
    feed h (xs ++ [d]) p t = (execute h (feed h xs p t).1 d (feed h xs p t).2).2 :=
  feed_append xs [d] p t

/-- The part of a call over a message that another piece follows comes to the end of its bytes. -/
theorem scan_of_parsed {d d' : Bytes} {es : List Event} {r : Ending}
    (hcourse : (executeBody (d ++ d') s).follow 0 = (es, r)) (hr : r.Parsed) (hd' : d' ≠ []) :
    ∃ es₁ s₁ es₂, (scan d s).follow 0 = (es₁, .ok ((), s₁)) ∧
      (executeBody d' s₁).follow 0 = (es₂, r) ∧ es = es₁ ++ es₂ := by
  rw [executeBody_append] at hcourse
  obtain ⟨es₁, r₁, hscan⟩ : ∃ es₁ r₁, (scan d s).follow 0 = (es₁, r₁) := ⟨_, _, rfl⟩
  rcases r₁ with ⟨stop, s₁⟩ | ⟨⟨⟩, s₁⟩
  · -- one call would have left the bytes of the other piece unparsed
    rw [follow_bind_of_error (s := s₁) (by rw [follow_mapExit, hscan]; rfl)] at hcourse
    cases hcourse
    have hpos := List.length_pos_iff.mpr hd'
    cases stop with
    | failed n => exact hr.elim
    | returned n =>
      have hleft : n + d'.length = 0 := hr
      omega
  · rw [follow_bind_of_ok (x := ()) (s := s₁) (by rw [follow_mapExit, hscan]; rfl)] at hcourse
    obtain ⟨rfl, hend⟩ := Prod.mk.inj hcourse
    exact ⟨es₁, s₁, _, hscan, Prod.ext rfl hend, rfl⟩

/-- **The pieces of a message, cut between its spans, do what the whole of it does.**  Here `s` and
`t` are where one call has come to before them. -/
theorem feed_sim (hg : Gathers h) {xs : List Bytes} {d : Bytes} {es : List Event} {r : Ending}
    (hne : ∀ x ∈ xs, x ≠ []) (hd : d ≠ []) (hok : s.Ok) (he : s.parser.errno = .ok)
    (hret : s.returned = false) (hsim : Sim h s t (Scan.enter s.parser) t')
    (hcourse : (executeBody (xs.flatten ++ d) s).follow 0 = (es, r)) (hr : r.Parsed)
    (hclean : ∀ zs ys, zs ≠ [] → zs ++ ys = xs → ∀ es₂ s₂,
      (scan zs.flatten s).follow 0 = (es₂, .ok ((), s₂)) →
        s₂.parser.state.reopens = none ∨ s₂.parser.state = .resStatus) :
    feed h (xs ++ [d]) s.parser t' =
      ((Ending.scan ((executeBody (xs.flatten ++ d) s).run h t).1).parser,
        ((executeBody (xs.flatten ++ d) s).run h t).2) := by
  obtain ⟨es₁, s₁, es₂, hscan, hlast, -⟩ := scan_of_parsed hcourse hr hd
  rw [feed_snoc, executeBody_append]
  rcases feed_prefix hg hne hok he hret hsim hscan hclean with
    ⟨t₁, t₁', hrun, hfeed, hsim₁⟩ | ⟨n, s₂, t₂, hrun, he₂, hfeed⟩
  · have hok₁ : s₁.Ok := scan_ok hok hscan trivial
    have he₁ : s₁.parser.errno = .ok := scan_sound he hscan trivial
    obtain ⟨r', hrun', hp, -⟩ := executeBody_sim hg hok₁ hsim₁ hlast hr
    rw [hfeed, run_bind_of_ok (x := ()) (s := s₁) (by rw [run_mapExit, hrun]; rfl)]
    show (execute h s₁.parser d t₁').2 = _
    rw [execute_eq he₁ hd, hrun', ← hp]
  · rw [hfeed, run_bind_of_error (s := s₂) (by rw [run_mapExit, hrun]; rfl)]
    exact feed_of_error he₂ [d] t₂

/-- A call for a piece that others follow parses all of it, or ends with an error. -/
theorem execute_length_cut (hg : Gathers h) {xs : List Bytes} {d : Bytes} {es : List Event}
    {s₁ : Scan} (hne : ∀ x ∈ xs, x ≠ []) (hd : d ≠ []) (hok : s.Ok) (he : s.parser.errno = .ok)
    (hret : s.returned = false) (hsim : Sim h s t (Scan.enter s.parser) t')
    (hscan : (scan (xs.flatten ++ d) s).follow 0 = (es, .ok ((), s₁)))
    (hclean : ∀ zs ys, zs ≠ [] → zs ++ ys = xs → ∀ es₂ s₂,
      (scan zs.flatten s).follow 0 = (es₂, .ok ((), s₂)) →
        s₂.parser.state.reopens = none ∨ s₂.parser.state = .resStatus)
    (hcut : s₁.parser.state.reopens = none ∨ s₁.parser.state = .resStatus) :
    (feed h (xs ++ [d]) s.parser t').1.errno ≠ .ok ∨
      (execute h (feed h xs s.parser t').1 d (feed h xs s.parser t').2).1 = d.length := by
  rw [scan_append] at hscan
  obtain ⟨es₂, r₂, hfirst⟩ : ∃ es₂ r₂, (scan xs.flatten s).follow 0 = (es₂, r₂) := ⟨_, _, rfl⟩
  -- the pieces before cannot have ended the scan
  rcases r₂ with ⟨stop, s₂⟩ | ⟨⟨⟩, s₂⟩
  · rw [follow_bind_of_error (s := s₂) (by rw [follow_mapExit, hfirst]; rfl)] at hscan
    cases hscan
  · rw [follow_bind_of_ok (x := ()) (s := s₂) (by rw [follow_mapExit, hfirst]; rfl)] at hscan
    rw [feed_snoc]
    -- the pieces before follow their course, or have failed
    rcases feed_prefix hg hne hok he hret hsim hfirst hclean with
      ⟨t₂, t₂', -, hfeed, hsim₂⟩ | ⟨n, s₃, t₃, -, he₃, hfeed⟩
    · rw [hfeed]
      rcases execute_sim hg hd (scan_ok hok hfirst trivial) (scan_sound he hfirst trivial)
          (scan_returned hret hfirst) hsim₂ (Prod.ext rfl (Prod.mk.inj hscan).2) hcut with
        ⟨t₁, t₁', -, hcall, -⟩ | ⟨n, s₃, t₃, -, he₃, hcall⟩
      · exact .inr (congrArg Prod.fst hcall)
      · left
        show (execute h s₂.parser d t₂').2.1.errno ≠ .ok
        rw [show (execute h s₂.parser d t₂').2 = _ from hcall]
        exact he₃
    · left
      rw [hfeed]
      show (feed h [d] s₃.parser t₃).1.errno ≠ .ok
      rw [feed_of_error he₃]
      exact he₃

/-- So does the call for the last piece. -/
theorem execute_length_last (hg : Gathers h) {xs : List Bytes} {d : Bytes} {es : List Event}
    {r : Ending} (hne : ∀ x ∈ xs, x ≠ []) (hd : d ≠ []) (hok : s.Ok) (he : s.parser.errno = .ok)
    (hret : s.returned = false) (hsim : Sim h s t (Scan.enter s.parser) t')
    (hcourse : (executeBody (xs.flatten ++ d) s).follow 0 = (es, r)) (hr : r.Parsed)
    (hclean : ∀ zs ys, zs ≠ [] → zs ++ ys = xs → ∀ es₂ s₂,
      (scan zs.flatten s).follow 0 = (es₂, .ok ((), s₂)) →
        s₂.parser.state.reopens = none ∨ s₂.parser.state = .resStatus) :
    (feed h (xs ++ [d]) s.parser t').1.errno ≠ .ok ∨
      (execute h (feed h xs s.parser t').1 d (feed h xs s.parser t').2).1 = d.length := by
  obtain ⟨es₁, s₁, es₂, hscan, hlast, -⟩ := scan_of_parsed hcourse hr hd
  rw [feed_snoc]
  -- the pieces before follow their course, or have failed
  rcases feed_prefix hg hne hok he hret hsim hscan hclean with
    ⟨t₁, t₁', -, hfeed, hsim₁⟩ | ⟨n, s₂, t₂, -, he₂, hfeed⟩
  · have he₁ : s₁.parser.errno = .ok := scan_sound he hscan trivial
    obtain ⟨r', hrun', -, hleft⟩ := executeBody_sim hg (scan_ok hok hscan trivial) hsim₁ hlast hr
    rw [hfeed]
    show (execute h s₁.parser d t₁').2.1.errno ≠ .ok ∨ (execute h s₁.parser d t₁').1 = d.length
    rw [execute_eq he₁ hd, hrun']
    rcases hleft with he' | hz
    · exact .inl he'
    · right
      show d.length - r'.left = d.length
      rw [hz, Nat.sub_zero]
  · left
    rw [hfeed]
    show (feed h [d] s₂.parser t₂).1.errno ≠ .ok
    rw [feed_of_error he₂]
    exact he₂

end Luwu.HttpParser
