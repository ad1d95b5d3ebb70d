import Luwu.HttpParser.Execute

/-!
# The bundled http_parser: what a byte does to spans

One statement for all states of the parser says what a turn of the loop does to the mark and which
data callbacks it makes (`turn_effect`).  The mark that is set is determined by the state
(`Scan.Ok`), so that a call which ends between two spans leaves nothing behind in its locals.
-/

namespace Luwu.HttpParser

open Lib InterM

/-- What a turn is proved to do when the callbacks it makes succeed. -/
abbrev Spec := List Event → Unit → Scan → Prop

variable {s : Scan}

/-! ## The operations of the loop -/

@[simp] theorem post_setParser (f : Parser → Parser) (Q : Spec) :
    Post 0 (setParser f) s Q ↔ Q [] () { s with parser := f s.parser } := Iff.rfl
@[simp] theorem post_updateState (st : State) (Q : Spec) :
    Post 0 (updateState st) s Q ↔ Q [] () { s with parser := { s.parser with state := st } } :=
  Iff.rfl
@[simp] theorem post_setFlags (f : Flags → Flags) (Q : Spec) :
    Post 0 (setFlags f) s Q ↔
      Q [] () { s with parser := { s.parser with flags := f s.parser.flags } } := Iff.rfl
@[simp] theorem post_setHeaderState (h : HeaderState) (Q : Spec) :
    Post 0 (setHeaderState h) s Q ↔
      Q [] () { s with parser := { s.parser with headerState := h } } :=
  Iff.rfl
@[simp] theorem post_returnAfter (Q : Spec) :
    Post 0 returnAfter s Q ↔ Q [] () { s with returned := true } := Iff.rfl
@[simp] theorem post_error (e : Errno) (Q : Spec) : Post 0 (error e) s Q ↔ True := Iff.rfl
@[simp] theorem post_callback (cb : Callback) (er : Exit) (Q : Spec) :
    Post 0 (callback cb er) s Q ↔ Q [(cb, s.parser)] () s := by simp [callback]
@[simp] theorem post_callbackNotify (cb : Callback) (Q : Spec) :
    Post 0 (callbackNotify cb) s Q ↔ Q [(cb, s.parser)] () s := post_callback cb .after Q
@[simp] theorem post_callbackNotifyNoadvance (cb : Callback) (Q : Spec) :
    Post 0 (callbackNotifyNoadvance cb) s Q ↔ Q [(cb, s.parser)] () s := post_callback cb .here Q

@[simp] theorem post_strictCheck (c : Bool) (m : M Unit) (Q : Spec) :
    Post 0 (strictCheck c m) s Q ↔ (c = false → Post 0 m s Q) := by
  unfold strictCheck
  cases c <;> simp

@[simp] theorem post_setMark (k : Span) (Q : Spec) :
    Post 0 (setMark k) s Q ↔
      Q [] ()
        { s with mark := if s.mark.map Prod.fst = some k then s.mark else some (k, []) } := Iff.rfl

theorem post_callbackData (k : Span) (er : Exit) (more : Bytes) (Q : Spec) :
    Post 0 (callbackData k er more) s Q ↔
      match s.mark with
      | some (k', bs) =>
        if k' = k then Q [(.data k (bs ++ more), s.parser)] () { s with mark := none }
        else Q [] () s
      | none => Q [] () s := by
  unfold callbackData
  rw [post_bind, post_gets]
  cases s.mark with
  | none => rfl
  | some m =>
    obtain ⟨k', bs⟩ := m
    show Post 0 (if k' = k then _ else _) s _ ↔ _
    rw [post_ite]
    by_cases hk : k' = k <;> simp [hk]

/-- Counting header bytes changes `nread` and nothing else. -/
theorem post_countHeaderSize {v : Nat} {Q : Spec}
    (h : ∀ n, Q [] () { s with parser := { s.parser with nread := n } }) :
    Post 0 (countHeaderSize v) s Q := by
  simp only [countHeaderSize, post_bind, post_setParser, post_gets, post_ite, post_error,
    post_pure, implies_true, true_and]
  intro _
  exact h _

/-! ## Spans and states -/

/-- The states in which the body is read, with or without a mark. -/
def State.inBody : State → Bool
  | .bodyIdentity | .bodyIdentityEof | .chunkData | .chunkDataAlmostDone => true
  | _ => false

/-- The states between the name of a header and the next one. -/
def State.inValue : State → Bool
  | .headerValueDiscardWs | .headerValueDiscardWsAlmostDone | .headerValueDiscardLws
  | .headerValueStart | .headerValue | .headerAlmostDone | .headerValueLws => true
  | _ => false

/-- The mark is the one of the state, and the inner loops run in their own states only. -/
structure Scan.Ok (s : Scan) : Prop where
  opened : ∀ k, s.parser.state.reopens = some k → ∃ bs, s.mark = some (k, bs)
  closed : s.parser.state.reopens = none →
    s.mark = none ∨ s.parser.state.inBody ∧ ∃ bs, s.mark = some (.body, bs)
  passed : s.parser.state ≠ .headerField → s.parser.state ≠ .headerValue → s.passed = none
  skip : s.parser.state ≠ .headerValue → s.skip = none

def Callback.isData : Callback → Bool
  | .data _ _ => true
  | _ => false

/-- What a turn at `s` on the byte `ch`, with the callbacks `es`, does to spans. -/
structure Effect (s : Scan) (ch : UInt8) (es : List Event) (s' : Scan) : Prop where
  ok : s'.Ok
  /-- A field callback reports the bytes of the mark. -/
  field : ∀ bs p, (.data .headerField bs, p) ∈ es → s.mark = some (.headerField, bs)
  /-- A URL callback reports the bytes of the mark. -/
  url : ∀ bs p, (.data .url bs, p) ∈ es → s.mark = some (.url, bs)
  /-- A value callback belongs to a header whose name has been read. -/
  value : ∀ bs p, (.data .headerValue bs, p) ∈ es → s.parser.state.inValue
  /-- The states after a name are reached by the callback of the name. -/
  enter : s'.parser.state.inValue →
    s.parser.state.inValue ∨ ∃ bs p, es = [(.data .headerField bs, p)]
  /-- The mark of a name is set at a character of a name. -/
  name : ∀ bs, s'.mark = some (.headerField, bs) →
    s.mark = some (.headerField, bs) ∨ bs = [] ∧ token ch ≠ 0

/-- The states that come with no mark set and that are not between a name and its value. -/
def State.calm (st : State) : Bool := st.reopens.isNone && !st.inValue

/-- A turn that neither opens nor closes a span. -/
def Quiet : Spec := fun es _ s' =>
  s'.mark = none ∧ s'.passed = none ∧ s'.skip = none ∧ s'.parser.state.calm = true ∧
    ∀ e ∈ es, e.1.isData = false

theorem Scan.Ok.of_noMark (hm : s.mark = none) (hp : s.passed = none) (hk : s.skip = none)
    (hst : s.parser.state.reopens = none) : s.Ok where
  opened k hk' := by
    rw [hst] at hk'
    cases hk'
  closed _ := .inl hm
  passed _ _ := hp
  skip _ := hk

theorem Quiet.effect {ch : UInt8} {es : List Event} {s' : Scan} (h : Quiet es () s') :
    Effect s ch es s' := by
  obtain ⟨hm, hp, hk, hst, hes⟩ := h
  have hplain : s'.parser.state.reopens = none ∧ s'.parser.state.inValue = false := by
    simpa [State.calm] using hst
  exact {
    ok := .of_noMark hm hp hk hplain.1
    field := fun bs p hmem => by cases hes _ hmem
    url := fun bs p hmem => by cases hes _ hmem
    value := fun bs p hmem => by cases hes _ hmem
    enter := fun hin => by simp [hplain.2] at hin
    name := fun bs hbs => by simp [hm] at hbs }

/-! ## States without spans -/

@[simp] theorem newMessage_calm (p : Parser) : p.newMessage.calm = true := by
  unfold Parser.newMessage Parser.startState
  split <;> [split <;> rfl; rfl]

/-- The states whose code touches no mark. -/
def State.quiet : State → Bool
  | .resStatusCode | .resStatusStart | .reqSpacesBeforeUrl | .headerFieldStart => false
  | st => st.calm && !st.inBody

/-- Notifications before a quiet turn do not matter. -/
theorem Quiet.cons {cb : Callback} {p : Parser} {es : List Event} {s' : Scan}
    (hcb : cb.isData = false) (h : Quiet es () s') : Quiet ((cb, p) :: es) () s' := by
  obtain ⟨hm, hp, hk, hst, hes⟩ := h
  exact ⟨hm, hp, hk, hst, List.forall_mem_cons.mpr ⟨hcb, hes⟩⟩

section

variable {ch : UInt8} (hm : s.mark = none) (hp : s.passed = none) (hk : s.skip = none)
include hm hp hk

theorem messageDone_quiet : Post 0 messageDone s Quiet := by
  simp [messageDone, Quiet, hm, hp, hk, Callback.isData]

theorem headersDone_quiet : Post 0 (headersDone ch) s Quiet := by
  simp +decide [headersDone, Quiet, hm, hp, hk, Callback.isData]

theorem headersAlmostDone_quiet : Post 0 (headersAlmostDone ch) s Quiet := by
  simp only [headersAlmostDone, post_strictCheck, post_bind, post_gets, post_ite,
    post_updateState, post_callbackNotifyNoadvance, post_error, post_setParser, post_ask]
  intro _
  refine ⟨fun _ => ?_, fun _ => ⟨fun _ => trivial, fun _ =>
    ⟨fun _ => ?_, fun h => absurd trivial h⟩⟩⟩
  · -- the end of a chunked message
    refine Post.mono (Q := Quiet) ?_ ?_
    · exact messageDone_quiet hm hp hk
    · exact fun es _ s' h => h.cons rfl
  · refine Post.mono (Q := Quiet) ?_ ?_
    · exact headersDone_quiet hm hp hk
    · exact fun es _ s' h => h.cons rfl

theorem startReq_quiet (hst : s.parser.state.calm) : Post 0 (startReq ch) s Quiet := by
  unfold startReq resetMessage
  cases firstMethod ch <;> simp +decide [Quiet, hm, hp, hk, hst, Callback.isData]

theorem startReqOrRes_quiet (hst : s.parser.state.calm) : Post 0 (startReqOrRes ch) s Quiet := by
  simp only [startReqOrRes, resetMessage, post_ite, post_pure, post_bind, post_setParser,
    post_updateState, post_callbackNotify]
  refine ⟨fun _ => ?_, fun _ => ⟨fun _ => ?_, fun _ => ?_⟩⟩
  · simp [Quiet, hm, hp, hk, hst]
  · simp +decide [Quiet, hm, hp, hk, Callback.isData]
  · exact startReq_quiet hm hp hk rfl

theorem reqMethod_quiet (hst : s.parser.state.calm) : Post 0 (reqMethod ch) s Quiet := by
  unfold reqMethod
  cases h : otherMethod s.parser.method s.parser.index ch <;>
    simp +decide [h, Quiet, hm, hp, hk, hst]

theorem chunkSizeStart_quiet : Post 0 (chunkSizeStart ch) s Quiet := by
  unfold chunkSizeStart
  cases unhex ch <;> simp +decide [Quiet, hm, hp, hk]

theorem chunkSize_quiet (hst : s.parser.state.calm) : Post 0 (chunkSize ch) s Quiet := by
  unfold chunkSize
  cases unhex ch <;> simp +decide [Quiet, hm, hp, hk, hst]

theorem dispatch_quiet (hst : s.parser.state.quiet) :
    Post 0 (dispatch s.parser.state ch) s Quiet := by
  cases h : s.parser.state
  case startReqOrRes => exact startReqOrRes_quiet hm hp hk (by rw [h]; rfl)
  case startReq => exact startReq_quiet hm hp hk (by rw [h]; rfl)
  case reqMethod => exact reqMethod_quiet hm hp hk (by rw [h]; rfl)
  case chunkSizeStart => exact chunkSizeStart_quiet hm hp hk
  case chunkSize => exact chunkSize_quiet hm hp hk (by rw [h]; rfl)
  case headersAlmostDone => exact headersAlmostDone_quiet hm hp hk
  case headersDone => exact headersDone_quiet hm hp hk
  case messageDone => exact messageDone_quiet hm hp hk
  -- the states that open or carry a mark are not quiet; the others are single steps
  all_goals first
    | exact absurd hst (by rw [h]; decide)
    | simp +decide [dispatch, Quiet, hm, hp, hk, Callback.isData, h, expectChar, httpMajor,
        httpMinor, httpDot, resHttpEnd, resFirstStatusCode, startRes, resetMessage, resOrRespH,
        reqHttpStart, reqHttpEnd, reqLineAlmostDone, chunkParameters, chunkSizeAlmostDone,
        chunkDataDone]

end

/-! ## Start lines -/

theorem Scan.Ok.of_mark {k : Span} {bs : Bytes} (hst : s.parser.state.reopens = some k)
    (hm : s.mark = some (k, bs)) (hloop : s.passed = none ∧ s.skip = none) : s.Ok where
  opened k' hk' := by
    rw [hst] at hk'
    cases hk'
    exact ⟨bs, hm⟩
  closed hk' := by
    rw [hst] at hk'
    cases hk'
  passed _ _ := hloop.1
  skip _ := hloop.2

/-- Only `s_header_field` has the mark of a field set. -/
theorem Scan.Ok.state_eq_headerField (h : s.Ok) {bs : Bytes}
    (hm : s.mark = some (.headerField, bs)) : s.parser.state = .headerField := by
  cases hre : s.parser.state.reopens with
  | none =>
    rcases h.closed hre with h | ⟨_, bs', h⟩ <;> rw [hm] at h <;> cases h
  | some k =>
    obtain ⟨bs', h⟩ := h.opened k hre
    rw [hm] at h
    cases h
    revert hre
    cases s.parser.state <;> decide

/-- The callbacks for names and values of headers. -/
def Callback.ofHeader : Callback → Bool
  | .data .headerField _ | .data .headerValue _ => true
  | _ => false

/-- A turn that has nothing to do with headers; `m` is the mark it starts with. -/
structure Aside (m : Option (Span × Bytes)) (es : List Event) (s' : Scan) : Prop where
  ok : s'.Ok
  state : s'.parser.state ≠ .headerField
  outside : s'.parser.state.inValue = false
  events : ∀ e ∈ es, e.1.ofHeader = false
  url : ∀ bs p, (.data .url bs, p) ∈ es → m = some (.url, bs)

variable {m : Option (Span × Bytes)}

theorem Aside.effect {ch : UInt8} {es : List Event} {s' : Scan} (h : Aside s.mark es s') :
    Effect s ch es s' where
  ok := h.ok
  field bs p hmem := by cases h.events _ hmem
  url := h.url
  value bs p hmem := by cases h.events _ hmem
  enter hin := by
    rw [h.outside] at hin
    cases hin
  name bs hbs := absurd (h.ok.state_eq_headerField hbs) h.state

theorem Aside.of_noMark {es : List Event} (hst : s.parser.state.calm = true) (hm : s.mark = none)
    (hp : s.passed = none) (hk : s.skip = none) (hes : ∀ e ∈ es, e.1.ofHeader = false)
    (hurl : ∀ bs p, (.data .url bs, p) ∈ es → m = some (.url, bs)) : Aside m es s := by
  obtain ⟨hre, hin⟩ : s.parser.state.reopens = none ∧ s.parser.state.inValue = false := by
    simpa [State.calm] using hst
  refine ⟨.of_noMark hm hp hk hre, ?_, hin, hes, hurl⟩
  intro hfield
  rw [hfield] at hre
  cases hre

theorem Aside.of_mark {k : Span} {bs : Bytes} (hst : s.parser.state.reopens = some k)
    (hkind : k = .url ∨ k = .status) (hm : s.mark = some (k, bs)) (hp : s.passed = none)
    (hk : s.skip = none) : Aside m [] s := by
  refine ⟨.of_mark hst hm ⟨hp, hk⟩, ?_, ?_, by simp, by simp⟩
  all_goals
    revert hst hkind
    cases s.parser.state <;> cases k <;> decide

theorem resStatus_aside {ch : UInt8} {bs : Bytes} (hst : s.parser.state = .resStatus)
    (hm : s.mark = some (.status, bs)) (hp : s.passed = none) (hk : s.skip = none) :
    Post 0 (resStatus ch) s fun es _ s' => Aside m es s' := by
  simp only [resStatus, post_ite, post_bind, post_updateState, post_pure, post_callbackData, hm,
    if_true]
  refine ⟨fun _ => ?_, fun _ => ⟨fun _ => ?_, fun _ => ?_⟩⟩
  · exact .of_noMark rfl rfl hp hk (by simp [Callback.ofHeader]) (by simp)
  · exact .of_noMark rfl rfl hp hk (by simp [Callback.ofHeader]) (by simp)
  · exact .of_mark (by rw [hst]; rfl) (.inr rfl) hm hp hk

section

variable {ch : UInt8} (hm : s.mark = none) (hp : s.passed = none) (hk : s.skip = none)
include hm hp hk

theorem resStatusStart_aside : Post 0 (resStatusStart ch) s fun es _ s' => Aside m es s' := by
  simp only [resStatusStart, post_bind, post_setMark, post_setParser, hm, Option.map_none,
    reduceCtorEq, if_false, post_ite, post_pure, List.nil_append]
  refine ⟨fun _ => ?_, fun _ => ?_⟩
  · exact resStatus_aside rfl rfl hp hk
  · exact .of_mark rfl (.inr rfl) rfl hp hk

theorem resStatusCode_aside (hst : s.parser.state = .resStatusCode) :
    Post 0 (resStatusCode ch) s fun es _ s' => Aside m es s' := by
  simp only [resStatusCode, post_ite, post_bind, post_updateState, post_error, post_setParser,
    post_gets, post_pure, List.nil_append, implies_true, and_true, true_and]
  refine ⟨fun _ => ⟨fun _ => ?_, fun _ _ => resStatusStart_aside hm hp hk⟩, fun _ _ => ?_⟩
  · exact .of_noMark rfl hm hp hk (by simp) (by simp)
  · exact .of_noMark (by rw [hst]; rfl) hm hp hk (by simp) (by simp)

end

/-- `parse_url_char` stays in the URL or rejects the character. -/
theorem parseUrlChar_reopens (st : State) (ch : UInt8) :
    parseUrlChar st ch = .dead ∨ (parseUrlChar st ch).reopens = some .url := by
  refine (parseUrlChar_step st ch).imp_right fun hstep => ?_
  generalize parseUrlChar st ch = st' at hstep
  cases hstep <;> rfl

theorem urlChar_aside {ch : UInt8} {bs : Bytes} (hm : s.mark = some (.url, bs))
    (hp : s.passed = none) (hk : s.skip = none) :
    Post 0 (urlChar ch) s fun es _ s' => Aside m es s' := by
  simp only [urlChar, post_bind, post_gets, post_updateState, post_ite, post_error, post_pure,
    implies_true, true_and, List.nil_append]
  intro hdead
  have hurl := (parseUrlChar_reopens s.parser.state ch).resolve_left hdead
  exact .of_mark hurl (.inl rfl) hm hp hk

theorem reqSpacesBeforeUrl_aside {ch : UInt8} (hst : s.parser.state = .reqSpacesBeforeUrl)
    (hm : s.mark = none) (hp : s.passed = none) (hk : s.skip = none) :
    Post 0 (reqSpacesBeforeUrl ch) s fun es _ s' => Aside m es s' := by
  simp only [reqSpacesBeforeUrl, post_ite, post_pure, post_bind, post_setMark, post_setParser, hm,
    Option.map_none, reduceCtorEq, if_false, List.nil_append]
  refine ⟨fun _ => ?_, fun _ => urlChar_aside rfl hp hk⟩
  exact .of_noMark (by rw [hst]; rfl) hm hp hk (by simp) (by simp)

theorem reqUrlStart_aside {ch : UInt8} {bs : Bytes} (hm : s.mark = some (.url, bs))
    (hp : s.passed = none) (hk : s.skip = none) :
    Post 0 (reqUrlStart ch) s fun es _ s' => Aside m es s' := by
  simp only [reqUrlStart, post_ite, post_error, implies_true, true_and]
  exact fun _ => urlChar_aside hm hp hk

theorem reqUrl_aside {ch : UInt8} {bs : Bytes} (hm : s.mark = some (.url, bs))
    (hp : s.passed = none) (hk : s.skip = none) :
    Post 0 (reqUrl ch) s fun es _ s' => Aside (some (.url, bs)) es s' := by
  simp only [reqUrl, post_ite, post_bind, post_updateState, post_setParser, post_callbackData, hm,
    if_true]
  refine ⟨fun _ => ?_, fun _ => ⟨fun _ => ?_, fun _ => urlChar_aside hm hp hk⟩⟩
  · exact .of_noMark rfl rfl hp hk (by simp [Callback.ofHeader]) (by simp)
  · refine .of_noMark ?_ rfl hp hk (by simp [Callback.ofHeader]) (by simp)
    show (if ch = CR then State.reqLineAlmostDone else State.headerFieldStart).calm = true
    split <;> rfl

/-! ## Headers -/

/-- The turns that end at the start of a header: the end of the headers, or a first character. -/
def FieldStart (ch : UInt8) : Spec := fun es _ s' =>
  Quiet es () s' ∨
    es = [] ∧ token ch ≠ 0 ∧ s'.parser.state = .headerField ∧ s'.mark = some (.headerField, []) ∧
      s'.passed = none ∧ s'.skip = none

theorem FieldStart.ok {ch : UInt8} {es : List Event} {s' : Scan} (h : FieldStart ch es () s') :
    s'.Ok := by
  rcases h with h | ⟨-, -, hst, hm, hloop⟩
  · have heffect : Effect s' ch es s' := h.effect
    exact heffect.ok
  · exact .of_mark (by rw [hst]; rfl) hm hloop

theorem FieldStart.effect {ch : UInt8} {es : List Event} {s' : Scan}
    (h : FieldStart ch es () s') : Effect s ch es s' := by
  have hok := h.ok
  rcases h with h | ⟨rfl, htok, hst, hm, -⟩
  · exact h.effect
  · exact {
      ok := hok
      field := by simp
      url := by simp
      value := by simp
      enter := by simp [hst, State.inValue]
      name := by
        intro bs hbs
        rw [hm] at hbs
        cases hbs
        exact .inr ⟨rfl, htok⟩ }

theorem headerFieldStart_start {ch : UInt8} (hm : s.mark = none) (hp : s.passed = none)
    (hk : s.skip = none) : Post 0 (headerFieldStart ch) s (FieldStart ch) := by
  simp only [headerFieldStart, post_ite, post_bind, post_updateState, post_error, post_setMark,
    post_setParser, hm, Option.map_none, reduceCtorEq, if_false, implies_true, true_and,
    List.nil_append]
  refine ⟨fun _ => ?_, fun _ => ⟨fun _ => ?_, fun _ htok => ?_⟩⟩
  · exact .inl ⟨rfl, hp, hk, rfl, by simp⟩
  · refine Post.mono (Q := Quiet) ?_ fun es _ s' h => .inl h
    exact headersAlmostDone_quiet rfl hp hk
  · exact .inr ⟨rfl, htok, rfl, rfl, hp, hk⟩

/-- The turns that stay between a name and the end of its value, without a callback. -/
theorem Effect.of_inValue {ch : UInt8} {s' : Scan} (hs : s.parser.state.inValue)
    (hs' : s'.parser.state.inValue) (hok : s'.Ok) : Effect s ch [] s' where
  ok := hok
  field := by simp
  url := by simp
  value := by simp
  enter _ := .inl hs
  name bs hbs := by
    rw [hok.state_eq_headerField hbs] at hs'
    cases hs'

theorem headerValueStart_mark {ch : UInt8} (hm : s.mark = none) (hp : s.passed = none)
    (hk : s.skip = none) :
    Post 0 (headerValueStart ch) s fun es _ s' =>
      es = [] ∧ s'.parser.state = .headerValue ∧ s'.mark = some (.headerValue, []) ∧
        s'.passed = none ∧ s'.skip = none := by
  unfold headerValueStart
  cases h : s.parser.headerState <;> simp [hm, hp, hk, h]

theorem headerValueStart_effect {ch : UInt8} {t : Scan} (hin : t.parser.state.inValue)
    (hm : s.mark = none) (hp : s.passed = none) (hk : s.skip = none) :
    Post 0 (headerValueStart ch) s fun es _ s' => Effect t ch es s' := by
  refine (headerValueStart_mark hm hp hk).mono fun es _ s' h => ?_
  obtain ⟨rfl, hst, hm', hloop⟩ := h
  exact .of_inValue hin (by rw [hst]; rfl) (.of_mark (by rw [hst]; rfl) hm' hloop)

/-- The start of a header after the value of the one before it. -/
theorem FieldStart.effect_value {ch : UInt8} {es : List Event} {s' : Scan} {bs : Bytes}
    {p : Parser} (hin : s.parser.state.inValue) (h : FieldStart ch es () s') :
    Effect s ch ((.data .headerValue bs, p) :: es) s' := by
  have hrest : Effect s ch es s' := h.effect
  exact {
    ok := hrest.ok
    field := fun bs' p' hmem => hrest.field bs' p' (by simpa using hmem)
    url := fun bs' p' hmem => hrest.url bs' p' (by simpa using hmem)
    value := fun _ _ _ => hin
    enter := fun _ => .inl hin
    name := hrest.name }

theorem fieldChar_state (ch c : UInt8) (p : Parser) : (fieldChar ch c p).state = p.state := by
  unfold fieldChar matchWord
  cases p.headerState <;> grind

theorem headerField_effect {ch : UInt8} {t : Scan} {bs : Bytes}
    (ht : t.mark = some (.headerField, bs)) (hst : s.parser.state = .headerField)
    (hm : s.mark = some (.headerField, bs)) (hk : s.skip = none) :
    Post 0 (headerField ch) s fun es _ s' => Effect t ch es s' := by
  simp only [headerField, post_bind, post_gets, post_ite, post_setParser, post_modify,
    List.nil_append]
  refine ⟨fun _ => ?_, fun _ => ?_⟩
  · -- a character of the name: the mark stays
    have hst' : (fieldChar ch (token ch) s.parser).state = .headerField :=
      (fieldChar_state ch (token ch) s.parser).trans hst
    exact {
      ok := {
        opened := by simp [hst', State.reopens, hm]
        closed := by simp [hst', State.reopens]
        passed := fun h => absurd hst' h
        skip := fun _ => hk }
      field := by simp
      url := by simp
      value := by simp
      enter := by simp [hst', State.inValue]
      name := fun bs' h => .inl (by rw [ht, ← hm]; exact h) }
  · -- the colon: the name is reported and the mark is gone
    apply post_countHeaderSize
    intro n
    simp only [post_error, implies_true, and_true, post_updateState, post_callbackData, hm, if_true,
      List.append_nil, List.nil_append]
    intro _
    exact {
      ok := .of_noMark rfl rfl hk rfl
      field := by simp [ht]
      url := by simp
      value := by simp
      enter := fun _ => .inr ⟨bs, _, rfl⟩
      name := by simp }

theorem matchWord_state (word : Bytes) (hit miss : HeaderState) (c : UInt8) (p : Parser) :
    (matchWord word hit miss c p).state = p.state := by
  unfold matchWord
  grind

/-- A character of a value moves `header_state`, the flags and the length, but no mark. -/
theorem valueChar_frame {ch : UInt8} :
    Post 0 (valueChar ch) s fun es _ s' =>
      es = [] ∧ s'.parser.state = s.parser.state ∧ s'.mark = s.mark := by
  unfold valueChar contentLengthNum
  cases h : s.parser.headerState <;> simp [h, matchWord_state]

/-- The end of a value, and the callback for it. -/
theorem Effect.of_value {ch : UInt8} {s' : Scan} {bs : Bytes} {p : Parser}
    (hin : s.parser.state.inValue) (hin' : s'.parser.state.inValue) (hok : s'.Ok) :
    Effect s ch [(.data .headerValue bs, p)] s' where
  ok := hok
  field := by simp
  url := by simp
  value _ _ _ := hin
  enter _ := .inl hin
  name bs hbs := by
    rw [hok.state_eq_headerField hbs] at hin'
    cases hin'

theorem Scan.Ok.of_headerValue {bs : Bytes} (hst : s.parser.state = .headerValue)
    (hm : s.mark = some (.headerValue, bs)) : s.Ok where
  opened := by simp [hst, State.reopens, hm]
  closed := by simp [hst, State.reopens]
  passed _ h := absurd hst h
  skip h := absurd hst h

theorem headerValue_effect {ch : UInt8} {t : Scan} {bs : Bytes} (ht : t.parser.state.inValue)
    (hst : s.parser.state = .headerValue) (hm : s.mark = some (.headerValue, bs)) :
    Post 0 (headerValue ch) s fun es _ s' => Effect t ch es s' := by
  simp only [headerValue, post_bind, post_gets, id_eq, post_ite, post_modify, post_updateState,
    post_callbackData, post_error, hm, if_true, List.nil_append, implies_true, true_and]
  refine ⟨fun _ => ?_, fun _ => ⟨fun _ => ?_, fun _ => ⟨fun _ => ?_, fun _ _ => ?_⟩⟩⟩
  · exact .of_inValue ht (by rw [hst]; rfl) (.of_headerValue hst rfl)
  · apply post_countHeaderSize
    intro n
    exact .of_value ht rfl (.of_noMark rfl rfl rfl rfl)
  · apply post_countHeaderSize
    intro n
    simp only [headerAlmostDone, post_ite, post_error, post_updateState, implies_true, true_and,
      List.nil_append, List.append_nil]
    intro _
    exact .of_value ht rfl (.of_noMark rfl rfl rfl rfl)
  · refine valueChar_frame.mono fun es _ s' h => ?_
    obtain ⟨rfl, hst', hm'⟩ := h
    rw [hst] at hst'
    rw [hm] at hm'
    exact .of_inValue ht (by rw [hst']; rfl) (.of_headerValue hst' hm')

theorem headerValueDiscardLws_effect {ch : UInt8} {t : Scan} (ht : t.parser.state.inValue)
    (hm : s.mark = none) (hp : s.passed = none) (hk : s.skip = none) :
    Post 0 (headerValueDiscardLws ch) s fun es _ s' => Effect t ch es s' := by
  simp only [headerValueDiscardLws, post_ite, post_updateState, post_bind, post_gets, post_error,
    post_setParser, post_setMark, post_callbackData, hm, Option.map_none, reduceCtorEq, if_false,
    if_true, implies_true, true_and, List.nil_append, List.append_nil]
  refine ⟨fun _ => ?_, fun _ _ => ?_⟩
  · exact .of_inValue ht rfl (.of_noMark rfl hp hk rfl)
  · refine Post.mono (Q := FieldStart ch) ?_ fun es _ s' h => h.effect_value ht
    exact headerFieldStart_start rfl hp hk

theorem headerValueLws_effect {ch : UInt8} {t : Scan} (ht : t.parser.state.inValue)
    (hm : s.mark = none) (hp : s.passed = none) (hk : s.skip = none) :
    Post 0 (headerValueLws ch) s fun es _ s' => Effect t ch es s' := by
  simp only [headerValueLws, post_ite, post_bind, post_setParser, post_updateState,
    List.nil_append]
  refine ⟨fun _ => ?_, fun _ => ?_⟩
  · exact headerValueStart_effect ht hm hp hk
  · refine Post.mono (Q := FieldStart ch) ?_ fun es _ s' h => h.effect
    exact headerFieldStart_start hm hp hk

theorem headerValueDiscardWs_effect {ch : UInt8} {t : Scan} (ht : t.parser.state.inValue)
    (hst : s.parser.state = .headerValueDiscardWs) (hm : s.mark = none) (hp : s.passed = none)
    (hk : s.skip = none) :
    Post 0 (headerValueDiscardWs ch) s fun es _ s' => Effect t ch es s' := by
  simp only [headerValueDiscardWs, post_ite, post_pure, post_updateState]
  refine ⟨fun _ => ?_, fun _ => ⟨fun _ => ?_, fun _ => ⟨fun _ => ?_, fun _ => ?_⟩⟩⟩
  · exact .of_inValue ht (by rw [hst]; rfl) (.of_noMark hm hp hk (by rw [hst]; rfl))
  · exact .of_inValue ht rfl (.of_noMark hm hp hk rfl)
  · exact .of_inValue ht rfl (.of_noMark hm hp hk rfl)
  · exact headerValueStart_effect ht hm hp hk

/-! ## Bodies -/

theorem Aside.of_body {bs : Bytes} (hst : s.parser.state.inBody) (hm : s.mark = some (.body, bs))
    (hp : s.passed = none) (hk : s.skip = none) : Aside m [] s := by
  have hstate : s.parser.state.reopens = none ∧ s.parser.state ≠ .headerField ∧
      s.parser.state.inValue = false := by
    revert hst
    cases s.parser.state <;> decide
  refine ⟨⟨?_, fun _ => .inr ⟨hst, bs, hm⟩, fun _ _ => hp, fun _ => hk⟩, hstate.2.1, hstate.2.2,
    by simp, by simp⟩
  intro k hk'
  rw [hstate.1] at hk'
  cases hk'

/-- Setting the mark of the body gives the bytes read so far. -/
theorem setMark_body (hm : s.mark = none ∨ ∃ bs, s.mark = some (.body, bs)) :
    ∃ bs, (if s.mark.map Prod.fst = some Span.body then s.mark else some (.body, [])) =
      some (.body, bs) := by
  rcases hm with hm | ⟨bs, hm⟩
  · exact ⟨[], by rw [hm]; rfl⟩
  · exact ⟨bs, by rw [hm]; rfl⟩

/-- The end of a body of known length, and what the end of a message does after it. -/
theorem Quiet.aside {es : List Event} {s' : Scan} {bs : Bytes} {p : Parser} (h : Quiet es () s') :
    Aside m ((.data .body bs, p) :: es) s' := by
  obtain ⟨hm, hp, hk, hst, hes⟩ := h
  refine .of_noMark hst hm hp hk (List.forall_mem_cons.mpr ⟨rfl, ?_⟩) ?_
  · intro e he
    have := hes e he
    revert this
    cases e.1 <;> simp [Callback.isData, Callback.ofHeader]
  · intro bs' p' hmem
    rcases List.mem_cons.mp hmem with heq | hmem
    · cases heq
    · cases hes _ hmem

section

variable {ch : UInt8} (hm : s.mark = none ∨ ∃ bs, s.mark = some (.body, bs))
  (hp : s.passed = none) (hk : s.skip = none)
include hm hp hk

theorem bodyIdentity_aside (hst : s.parser.state = .bodyIdentity) :
    Post 0 (bodyIdentity ch) s fun es _ s' => Aside m es s' := by
  obtain ⟨bs, hbs⟩ := setMark_body hm
  simp only [bodyIdentity, post_bind, post_setMark, hbs, post_setParser, post_gets, post_ite,
    post_updateState, post_callbackData, if_true, post_pure, List.nil_append]
  refine ⟨fun _ => ?_, fun _ => ?_⟩
  · refine Post.mono (Q := Quiet) ?_ fun es _ s' h => h.aside
    exact messageDone_quiet rfl hp hk
  · exact .of_body (by rw [hst]; rfl) rfl hp hk

theorem chunkData_aside (hst : s.parser.state = .chunkData) :
    Post 0 chunkData s fun es _ s' => Aside m es s' := by
  obtain ⟨bs, hbs⟩ := setMark_body hm
  simp only [chunkData, post_bind, post_setMark, hbs, post_setParser, post_gets, post_ite,
    post_updateState, post_pure, List.nil_append]
  refine ⟨fun _ => ?_, fun _ => ?_⟩
  · exact .of_body rfl rfl hp hk
  · exact .of_body (by rw [hst]; rfl) rfl hp hk

theorem chunkDataAlmostDone_aside :
    Post 0 (chunkDataAlmostDone ch) s fun es _ s' => Aside m es s' := by
  simp only [chunkDataAlmostDone, post_strictCheck, post_bind, post_updateState, post_callbackData,
    List.nil_append]
  intro _
  rcases hm with hm | ⟨bs, hm⟩
  · simp only [hm]
    exact .of_noMark rfl rfl hp hk (by simp) (by simp)
  · simp only [hm, if_true]
    exact .of_noMark rfl rfl hp hk (by simp [Callback.ofHeader]) (by simp)

theorem bodyIdentityEof_aside (hst : s.parser.state = .bodyIdentityEof) :
    Post 0 (setMark .body) s fun es _ s' => Aside m es s' := by
  obtain ⟨bs, hbs⟩ := setMark_body hm
  rw [post_setMark, hbs]
  exact .of_body (by rw [hst]; rfl) rfl hp hk

end

/-! ## A turn -/

/-- Where the next byte has no mark to find. -/
theorem Scan.Ok.mark_eq_none (h : s.Ok) (hre : s.parser.state.reopens = none)
    (hb : s.parser.state.inBody = false) : s.mark = none := by
  rcases h.closed hre with hm | ⟨hin, -⟩
  · exact hm
  · rw [hb] at hin
    cases hin

theorem Scan.Ok.body_mark (h : s.Ok) (hre : s.parser.state.reopens = none) :
    s.mark = none ∨ ∃ bs, s.mark = some (.body, bs) := (h.closed hre).imp_right And.right

theorem quiet_facts {st : State} (h : st.quiet) :
    st.reopens = none ∧ st.inBody = false ∧ st ≠ .headerField ∧ st ≠ .headerValue := by
  revert h
  cases st <;> decide

/-- What the code of a state does to the spans of a turn that started at `t`; `s` is `t` with the
byte counted. -/
theorem dispatch_effect {ch : UInt8} {t : Scan} (hok : s.Ok)
    (ht : t.parser.state = s.parser.state) (htm : t.mark = s.mark) :
    Post 0 (dispatch s.parser.state ch) s fun es _ s' => Effect t ch es s' := by
  by_cases hq : s.parser.state.quiet
  · obtain ⟨hre, hb, hnf, hnv⟩ := quiet_facts hq
    refine Post.mono (Q := Quiet) ?_ fun es _ s' h => h.effect
    exact dispatch_quiet (hok.mark_eq_none hre hb) (hok.passed hnf hnv) (hok.skip hnv) hq
  have hloop (hnf : s.parser.state ≠ .headerField) (hnv : s.parser.state ≠ .headerValue) :
      s.passed = none ∧ s.skip = none := ⟨hok.passed hnf hnv, hok.skip hnv⟩
  cases h : s.parser.state
  case headerField =>
    obtain ⟨bs, hm⟩ := hok.opened .headerField (by rw [h]; rfl)
    exact headerField_effect (htm.trans hm) h hm (hok.skip (by rw [h]; decide))
  case headerValue =>
    obtain ⟨bs, hm⟩ := hok.opened .headerValue (by rw [h]; rfl)
    exact headerValue_effect (by rw [ht, h]; rfl) h hm
  -- the quiet states are done; in all others the inner loops are not running
  all_goals first
    | exact absurd (by rw [h]; rfl) hq
    | obtain ⟨hp, hk⟩ := hloop (by rw [h]; decide) (by rw [h]; decide)
  case resStatus =>
    obtain ⟨bs, hm⟩ := hok.opened .status (by rw [h]; rfl)
    exact (resStatus_aside h hm hp hk).mono fun es _ s' h => h.effect
  case bodyIdentity =>
    have hm := hok.body_mark (by rw [h]; rfl)
    exact (bodyIdentity_aside hm hp hk h).mono fun es _ s' h => h.effect
  case bodyIdentityEof =>
    have hm := hok.body_mark (by rw [h]; rfl)
    exact (bodyIdentityEof_aside hm hp hk h).mono fun es _ s' h => h.effect
  case chunkData =>
    have hm := hok.body_mark (by rw [h]; rfl)
    exact (chunkData_aside hm hp hk h).mono fun es _ s' h => h.effect
  case chunkDataAlmostDone =>
    have hm := hok.body_mark (by rw [h]; rfl)
    exact (chunkDataAlmostDone_aside hm hp hk).mono fun es _ s' h => h.effect
  case reqSchema | reqSchemaSlash | reqSchemaSlashSlash | reqServerStart =>
    obtain ⟨bs, hm⟩ := hok.opened .url (by rw [h]; rfl)
    exact (reqUrlStart_aside hm hp hk).mono fun es _ s' h => h.effect
  case reqServer | reqServerWithAt | reqPath | reqQueryStringStart | reqQueryString |
      reqFragmentStart | reqFragment =>
    obtain ⟨bs, hm⟩ := hok.opened .url (by rw [h]; rfl)
    exact (reqUrl_aside hm hp hk).mono fun es _ s' h => Aside.effect (by rw [htm, hm]; exact h)
  -- the states left have no mark set when a byte arrives
  all_goals have hm := hok.mark_eq_none (by rw [h]; rfl) (by rw [h]; rfl)
  case resStatusCode => exact (resStatusCode_aside hm hp hk h).mono fun es _ s' h => h.effect
  case resStatusStart => exact (resStatusStart_aside hm hp hk).mono fun es _ s' h => h.effect
  case reqSpacesBeforeUrl =>
    exact (reqSpacesBeforeUrl_aside h hm hp hk).mono fun es _ s' h => h.effect
  case headerFieldStart => exact (headerFieldStart_start hm hp hk).mono fun es _ s' h => h.effect
  all_goals have hin : t.parser.state.inValue := by rw [ht, h]; rfl
  case headerValueDiscardWs => exact headerValueDiscardWs_effect hin h hm hp hk
  case headerValueDiscardWsAlmostDone =>
    simp only [dispatch, post_strictCheck, post_updateState]
    exact fun _ => .of_inValue hin rfl (.of_noMark hm hp hk rfl)
  case headerValueDiscardLws => exact headerValueDiscardLws_effect hin hm hp hk
  case headerValueStart => exact headerValueStart_effect hin hm hp hk
  case headerValueLws => exact headerValueLws_effect hin hm hp hk
  case headerAlmostDone =>
    simp only [dispatch, headerAlmostDone, post_ite, post_error, post_updateState, implies_true,
      true_and]
    exact fun _ => .of_inValue hin rfl (.of_noMark hm hp hk rfl)

/-- **What a byte does to spans**, in every state of the parser. -/
theorem turn_effect {ch : UInt8} (hok : s.Ok) :
    Post 0 (turn ch) s fun es _ s' => Effect s ch es s' := by
  simp only [turn, post_bind, post_gets, id_eq, post_ite, List.nil_append]
  refine ⟨fun _ => ?_, fun _ => dispatch_effect hok rfl rfl⟩
  apply post_countHeaderSize
  intro n
  exact dispatch_effect (s := { s with parser := { s.parser with nread := n } })
    ⟨hok.opened, hok.closed, hok.passed, hok.skip⟩ rfl rfl

theorem Scan.Ok.advance (hok : s.Ok) (ch : UInt8) : (s.advance ch).Ok where
  opened k hk := by
    obtain ⟨bs, hm⟩ := hok.opened k hk
    exact ⟨bs ++ [ch], by simp [Scan.advance, hm]⟩
  closed hk := by
    rcases hok.closed hk with hm | ⟨hin, bs, hm⟩
    · exact .inl (by simp [Scan.advance, hm])
    · exact .inr ⟨hin, bs ++ [ch], by simp [Scan.advance, hm]⟩
  passed := hok.passed
  skip := hok.skip

theorem Scan.enter_ok (p : Parser) : (Scan.enter p).Ok where
  opened k hk := ⟨[], by simp [Scan.enter, show p.state.reopens = some k from hk]⟩
  closed hk := .inl (by simp [Scan.enter, show p.state.reopens = none from hk])
  passed _ _ := rfl
  skip _ := rfl

end Luwu.HttpParser
