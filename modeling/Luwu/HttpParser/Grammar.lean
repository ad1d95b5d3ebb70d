import Luwu.HttpParser.Cut
import Luwu.Lib.Obeys

/-!
# The bundled http_parser: the order of the callbacks

The owner of a parser is told of a message by a sequence of callbacks, cut as the calls of
`http_parser_execute` cut the bytes.  `Phase.next` is the order of these callbacks: a message
begins, its start line is reported, then names and values of headers in turn, the end of the
headers, the body or the chunks, and the end of the message.  The automaton counts the bytes of the
body.

The order holds for all bytes, however they are cut into calls, and whatever the callbacks answer.
What the parser is in the middle of is its state, so that the invariant is a relation between
phases and states (`Scan.Fits`), which every turn of the loop keeps (`turn_keeps`).
-/

namespace Luwu.HttpParser

open Lib InterM Inter

/-- What the owner has been told of the message. -/
inductive Phase where
  /-- No message has begun. -/
  | idle
  /-- The message has begun, and no header has been named. -/
  | line
  /-- A header, or with `trailing` a trailer, has been named. -/
  | field (trailing : Bool)
  | value (trailing : Bool)
  /-- The headers are complete; the body has so many bytes, or goes on to the end of the stream. -/
  | ended (left : Option Nat)
  /-- Part of the body has been reported, and so many bytes of it are left. -/
  | body (left : Option Nat)
  /-- So many bytes of a chunk are left. -/
  | chunk (left : Nat)
  /-- A chunk is complete. -/
  | between
  /-- The header of the last chunk has been reported. -/
  | trailer
  /-- The last chunk is complete. -/
  | last
deriving DecidableEq, Repr

/-- What is left of a body after `n` bytes of it; `none` where it has not so many. -/
def bodyLeft (left : Option Nat) (n : Nat) : Option (Option Nat) :=
  match left with
  | none => some none
  | some l => if n ≤ l then some (some (l - n)) else none

/-- The length of the body that the headers give.  The lengths of chunks come with the chunks, and
behind a `CONNECT` nothing of HTTP follows. -/
def Parser.bodyLength (p : Parser) : Option Nat :=
  if p.flags.chunked = true ∨ p.upgrade = true ∧ p.method = .connect then some 0
  else if p.contentLength = ullongMax then none
  else some p.contentLength

/-- The phase of a chunk of the size that its header gives. -/
def Parser.chunkPhase (p : Parser) : Phase :=
  if p.contentLength = 0 then .trailer else .chunk p.contentLength

/-- The order of the callbacks. -/
def Phase.next (ph : Phase) (e : Event) : Option Phase :=
  match ph, e.1 with
  | .idle, .messageBegin => some .line
  | .line, .data .url _ => some .line
  | .line, .data .status _ => some .line
  | .line, .data .headerField _ => some (.field false)
  | .line, .headersComplete => some (.ended e.2.bodyLength)
  | .trailer, .data .headerField _ => some (.field true)
  | .trailer, .chunkComplete => some .last
  | .field tr, .data .headerField _ => some (.field tr)
  | .field tr, .data .headerValue _ => some (.value tr)
  | .value tr, .data .headerField _ => some (.field tr)
  | .value tr, .data .headerValue _ => some (.value tr)
  | .value false, .headersComplete => some (.ended e.2.bodyLength)
  | .value true, .chunkComplete => some .last
  | .ended left, .data .body bs => (bodyLeft left bs.length).map .body
  | .ended _, .chunkHeader => some e.2.chunkPhase
  | .ended _, .messageComplete => some .idle
  | .body left, .data .body bs => (bodyLeft left bs.length).map .body
  | .body none, .messageComplete => some .idle
  | .body (some 0), .messageComplete => some .idle
  | .chunk left, .data .body bs =>
    if bs.length ≤ left then some (.chunk (left - bs.length)) else none
  | .chunk 0, .chunkComplete => some .between
  | .between, .chunkHeader => some e.2.chunkPhase
  | .last, .messageComplete => some .idle
  | _, _ => none

/-! ## Phases and states -/

/-- A header, or with `tr` a trailer, may be named. -/
def Phase.beforeField (tr : Bool) : Phase → Bool
  | .line => !tr
  | .trailer => tr
  | .value tr' => tr' == tr
  | _ => false

/-- The name of a header is being read. -/
def Phase.inField (tr : Bool) : Phase → Bool
  | .field tr' => tr' == tr
  | ph => ph.beforeField tr

/-- The name of a header has been reported. -/
def Phase.afterField (tr : Bool) : Phase → Bool
  | .field tr' => tr' == tr
  | .value tr' => tr' == tr
  | _ => false

/-- A chunk may begin. -/
def Phase.beforeChunk : Phase → Bool
  | .ended _ => true
  | .between => true
  | _ => false

/-- So many bytes of the body are still to be reported. -/
def Phase.BodyIs (left : Option Nat) (ph : Phase) : Prop := ph = .ended left ∨ ph = .body left

/-- The bytes that a mark of kind `k` has collected. -/
def Marked (k : Span) (m : Option (Span × Bytes)) (n : Nat) : Prop :=
  (m = none ∧ n = 0) ∨ ∃ bs, m = some (k, bs) ∧ bs.length = n

/-- What the owner has been told agrees with what the parser is in the middle of. -/
def Scan.Fits (ph : Phase) (s : Scan) : Prop :=
  let tr := s.parser.flags.trailing
  match s.parser.state with
  | .dead | .startReqOrRes | .startRes | .startReq => ph = .idle ∧ s.mark = none
  | .resStatus => ph = .line ∧ tr = false ∧ ∃ bs, s.mark = some (.status, bs)
  | .reqSchema | .reqSchemaSlash | .reqSchemaSlashSlash | .reqServerStart | .reqServer
  | .reqServerWithAt | .reqPath | .reqQueryStringStart | .reqQueryString | .reqFragmentStart
  | .reqFragment => ph = .line ∧ tr = false ∧ ∃ bs, s.mark = some (.url, bs)
  | .headerFieldStart | .headersAlmostDone => ph.beforeField tr ∧ s.mark = none
  | .headerField => ph.inField tr ∧ ∃ bs, s.mark = some (.headerField, bs)
  | .headerValue => ph.afterField tr ∧ ∃ bs, s.mark = some (.headerValue, bs)
  | .headerAlmostDone | .headerValueLws => ph = .value tr ∧ s.mark = none
  | .headerValueDiscardWs | .headerValueDiscardWsAlmostDone | .headerValueDiscardLws
  | .headerValueStart => ph.afterField tr ∧ s.mark = none
  | .chunkSizeStart | .chunkSize | .chunkParameters | .chunkSizeAlmostDone =>
    ph.beforeChunk ∧ s.mark = none
  | .chunkData => s.parser.contentLength ≠ 0 ∧
    ∃ n, Marked .body s.mark n ∧ ph = .chunk (s.parser.contentLength + n)
  | .chunkDataAlmostDone => ∃ n, Marked .body s.mark n ∧ ph = .chunk n
  | .chunkDataDone => ph = .chunk 0 ∧ s.mark = none
  | .bodyIdentity => s.parser.contentLength ≠ 0 ∧
    ∃ n, Marked .body s.mark n ∧ ph.BodyIs (some (s.parser.contentLength + n))
  | .bodyIdentityEof => ph.BodyIs none ∧ ∃ n, Marked .body s.mark n
  -- the code passes through these states in the middle of a byte only
  | .headersDone | .messageDone => False
  -- the states of the start lines that belong to no span
  | _ => ph = .line ∧ tr = false ∧ s.mark = none

section

variable {ph : Phase}

theorem beforeField_headersComplete (hb : ph.beforeField false) (p : Parser) :
    ph.next (.headersComplete, p) = some (.ended p.bodyLength) := by
  cases ph <;> simp_all [Phase.beforeField, Phase.next.eq_def]

theorem beforeField_chunkComplete (hb : ph.beforeField true) (p : Parser) :
    ph.next (.chunkComplete, p) = some .last := by
  cases ph <;> simp_all [Phase.beforeField, Phase.next.eq_def]

theorem inField_of_beforeField {tr : Bool} (hb : ph.beforeField tr) : ph.inField tr := by
  cases ph <;> simp_all [Phase.beforeField, Phase.inField]

theorem inField_headerField {tr : Bool} (hin : ph.inField tr) (bs : Bytes) (p : Parser) :
    ph.next (.data .headerField bs, p) = some (.field tr) := by
  cases ph <;> simp_all [Phase.inField, Phase.beforeField, Phase.next.eq_def]

theorem afterField_headerValue {tr : Bool} (hv : ph.afterField tr) (bs : Bytes) (p : Parser) :
    ph.next (.data .headerValue bs, p) = some (.value tr) := by
  cases ph <;> simp_all [Phase.afterField, Phase.next.eq_def]

theorem beforeField_value (tr : Bool) : (Phase.value tr).beforeField tr := by
  simp [Phase.beforeField]

theorem inField_field (tr : Bool) : (Phase.field tr).inField tr := by
  simp [Phase.inField]

theorem afterField_value (tr : Bool) : (Phase.value tr).afterField tr := by
  simp [Phase.afterField]

theorem beforeChunk_chunkHeader (hb : ph.beforeChunk) (p : Parser) :
    ph.next (.chunkHeader, p) = some p.chunkPhase := by
  cases ph <;> simp_all [Phase.beforeChunk, Phase.next.eq_def]

/-- The bytes of a body that are left are counted down as its callbacks report them. -/
theorem bodyIs_next {left left' : Option Nat} (hb : ph.BodyIs left) {bs : Bytes}
    (hleft : bodyLeft left bs.length = some left') (p : Parser) :
    ph.next (.data .body bs, p) = some (.body left') := by
  rcases hb with rfl | rfl <;> simp [Phase.next.eq_def, hleft]

theorem Marked.body {k : Span} {bs : Bytes} {n : Nat} (hm : Marked .body (some (k, bs)) n) :
    k = .body ∧ bs.length = n := by
  simpa [Marked] using hm

theorem marked_setMark {m : Option (Span × Bytes)} {n : Nat} (hm : Marked .body m n) :
    ∃ bs, (if m.map Prod.fst = some .body then m else some (.body, [])) = some (.body, bs) ∧
      bs.length = n := by
  rcases hm with ⟨rfl, rfl⟩ | ⟨bs, rfl, rfl⟩
  · exact ⟨[], by simp, rfl⟩
  · exact ⟨bs, by simp, rfl⟩

end

/-! ## The operations of the loop -/

/-- The code keeps to the order, and sets an error wherever it leaves through an exit. -/
def Keeps {α : Type} (ph : Phase) (m : M α) (s : Scan) (Q : Phase → α → Scan → Prop) : Prop :=
  InterM.Obeys Phase.next (fun _ _ s => s.parser.errno ≠ .ok) ph m s Q

/-- What holds of the phase and the state where the code of a byte goes on. -/
abbrev Until := Phase → Unit → Scan → Prop

section

variable {α β : Type} {ph : Phase} {s : Scan} {ch : UInt8} {Q : Until}

theorem Keeps.mono {m : M α} {Q Q' : Phase → α → Scan → Prop} (h : Keeps ph m s Q)
    (hQ : ∀ ph x s, Q ph x s → Q' ph x s) : Keeps ph m s Q' :=
  InterM.Obeys.mono h hQ

@[simp] theorem keeps_pure (x : α) (Q : Phase → α → Scan → Prop) :
    Keeps ph (pure x) s Q ↔ Q ph x s := Iff.rfl
@[simp] theorem keeps_gets (f : Scan → α) (Q : Phase → α → Scan → Prop) :
    Keeps ph (.gets f) s Q ↔ Q ph (f s) s := Iff.rfl
@[simp] theorem keeps_modify (f : Scan → Scan) : Keeps ph (.modify f) s Q ↔ Q ph () (f s) := Iff.rfl
@[simp] theorem keeps_setParser (f : Parser → Parser) :
    Keeps ph (setParser f) s Q ↔ Q ph () { s with parser := f s.parser } := Iff.rfl
@[simp] theorem keeps_updateState (st : State) :
    Keeps ph (updateState st) s Q ↔ Q ph () { s with parser := { s.parser with state := st } } :=
  Iff.rfl
@[simp] theorem keeps_setFlags (f : Flags → Flags) :
    Keeps ph (setFlags f) s Q ↔
      Q ph () { s with parser := { s.parser with flags := f s.parser.flags } } := Iff.rfl
@[simp] theorem keeps_setHeaderState (h : HeaderState) :
    Keeps ph (setHeaderState h) s Q ↔
      Q ph () { s with parser := { s.parser with headerState := h } } := Iff.rfl
@[simp] theorem keeps_returnAfter :
    Keeps ph returnAfter s Q ↔ Q ph () { s with returned := true } := Iff.rfl
@[simp] theorem keeps_error (e : Errno) : Keeps ph (error e) s Q ↔ e ≠ .ok := Iff.rfl
@[simp] theorem keeps_setMark (k : Span) :
    Keeps ph (setMark k) s Q ↔
      Q ph () { s with mark := if s.mark.map Prod.fst = some k then s.mark else some (k, []) } :=
  Iff.rfl

@[simp] theorem keeps_ask (f : Scan → Event) (Q : Phase → Int → Scan → Prop) :
    Keeps ph (.ask f) s Q ↔ ∃ ph', ph.next (f s) = some ph' ∧ ∀ r, Q ph' r s := Iff.rfl

@[simp] theorem keeps_bind (m : M α) (f : α → M β) (Q : Phase → β → Scan → Prop) :
    Keeps ph (m >>= f) s Q ↔ Keeps ph m s fun ph x s' => Keeps ph (f x) s' Q :=
  obeys_bind m f Q

@[simp] theorem keeps_ite (c : Prop) [Decidable c] (m n : M Unit) :
    Keeps ph (if c then m else n) s Q ↔ (c → Keeps ph m s Q) ∧ (¬ c → Keeps ph n s Q) :=
  obeys_ite c m n Q

@[simp] theorem keeps_strictCheck (c : Bool) (m : M Unit) :
    Keeps ph (strictCheck c m) s Q ↔ (c = false → Keeps ph m s Q) := by
  unfold strictCheck
  cases c <;> simp

theorem callback_errno (cb : Callback) : cb.errno ≠ .ok := by
  cases cb with
  | data k bs => cases k <;> exact Errno.noConfusion
  | _ => exact Errno.noConfusion

@[simp] theorem keeps_callback (cb : Callback) (er : Exit) :
    Keeps ph (callback cb er) s Q ↔ ∃ ph', ph.next (cb, s.parser) = some ph' ∧ Q ph' () s := by
  simp only [callback, keeps_bind, keeps_ask, keeps_ite, keeps_setParser, keeps_pure]
  constructor
  · rintro ⟨ph', hnext, hk⟩
    exact ⟨ph', hnext, (hk 0).2 (fun h => h rfl)⟩
  · rintro ⟨ph', hnext, hQ⟩
    refine ⟨ph', hnext, fun r => ⟨fun _ => ?_, fun _ => hQ⟩⟩
    exact callback_errno cb

@[simp] theorem keeps_callbackNotify (cb : Callback) :
    Keeps ph (callbackNotify cb) s Q ↔ ∃ ph', ph.next (cb, s.parser) = some ph' ∧ Q ph' () s :=
  keeps_callback cb .after
@[simp] theorem keeps_callbackNotifyNoadvance (cb : Callback) :
    Keeps ph (callbackNotifyNoadvance cb) s Q ↔
      ∃ ph', ph.next (cb, s.parser) = some ph' ∧ Q ph' () s :=
  keeps_callback cb .here

theorem keeps_callbackData (k : Span) (er : Exit) (more : Bytes) :
    Keeps ph (callbackData k er more) s Q ↔
      match s.mark with
      | some (k', bs) =>
        if k' = k then
          ∃ ph', ph.next (.data k (bs ++ more), s.parser) = some ph' ∧
            Q ph' () { s with mark := none }
        else Q ph () s
      | none => Q ph () s := by
  unfold callbackData
  rw [keeps_bind, keeps_gets]
  cases s.mark with
  | none => rfl
  | some m =>
    obtain ⟨k', bs⟩ := m
    show Keeps ph (if k' = k then _ else _) s _ ↔ _
    rw [keeps_ite]
    by_cases hk : k' = k <;> simp [hk]

theorem keeps_countHeaderSize {v : Nat}
    (h : ∀ n, Q ph () { s with parser := { s.parser with nread := n } }) :
    Keeps ph (countHeaderSize v) s Q := by
  simp only [countHeaderSize, keeps_bind, keeps_setParser, keeps_gets, keeps_ite, keeps_error,
    keeps_pure]
  refine ⟨fun _ => Errno.noConfusion, fun _ => h _⟩

end

/-! ## The states -/

/-- After the byte `ch`, which the open span takes in, phase and state agree; the call returns early
between two messages only. -/
def Goes (ch : UInt8) : Until := fun ph _ s' =>
  (s'.advance ch).Fits ph ∧ (s'.returned = false ∨ ph = .idle)

section

variable {ph : Phase} {s : Scan} {ch : UInt8}

theorem newMessage_cases (p : Parser) :
    p.newMessage = .dead ∨ p.newMessage = .startReq ∨ p.newMessage = .startRes := by
  unfold Parser.newMessage Parser.startState
  split
  · split
    · exact .inr (.inl rfl)
    · exact .inr (.inr rfl)
  · exact .inl rfl

/-- Between two messages the parser waits for the next one, or for the end of the connection. -/
theorem goes_newMessage {p : Parser} (hst : s.parser.state = p.newMessage) (hm : s.mark = none) :
    Goes ch .idle () s := by
  refine ⟨?_, .inr rfl⟩
  unfold Scan.Fits Scan.advance
  rcases newMessage_cases p with h | h | h <;> simp [hst, h, hm]

theorem messageDone_keeps (hend : ∀ p, ph.next (.messageComplete, p) = some .idle)
    (hm : s.mark = none) : Keeps ph messageDone s (Goes ch) := by
  simp only [messageDone, keeps_bind, keeps_gets, keeps_updateState, keeps_callbackNotify, hend,
    keeps_ite, keeps_returnAfter, keeps_pure]
  refine ⟨_, rfl, fun _ => ?_, fun _ => ?_⟩
  · exact goes_newMessage rfl hm
  · exact goes_newMessage rfl hm

theorem matchWord_trailing (word : Bytes) (hit miss : HeaderState) (c : UInt8) (p : Parser) :
    (matchWord word hit miss c p).flags.trailing = p.flags.trailing := by
  unfold matchWord
  grind

theorem fieldChar_trailing (ch c : UInt8) (p : Parser) :
    (fieldChar ch c p).flags.trailing = p.flags.trailing := by
  unfold fieldChar
  cases p.headerState <;> simp [matchWord_trailing] <;> split <;> rfl

@[simp] theorem finishValue_trailing (h : HeaderState) (f : Flags) :
    (finishValue h f).trailing = f.trailing := by
  cases h <;> rfl

/-- A character of a value changes neither the state nor the mark. -/
theorem valueChar_keeps :
    Keeps ph (valueChar ch) s fun ph' _ s' =>
      ph' = ph ∧ s'.parser.state = s.parser.state ∧ s'.mark = s.mark ∧
        s'.parser.flags.trailing = s.parser.flags.trailing ∧ s'.returned = s.returned := by
  unfold valueChar contentLengthNum
  cases h : s.parser.headerState <;> simp [h, matchWord_state, matchWord_trailing]

theorem fits_url (hst : s.parser.state.reopens = some .url) (htr : s.parser.flags.trailing = false)
    (hm : ∃ bs, s.mark = some (.url, bs)) : s.Fits .line := by
  unfold Scan.Fits
  cases h : s.parser.state <;> simp_all [State.reopens]

section

variable (hr : s.returned = false)
include hr

/-- The end of the headers: the code turns to the body that they describe, unless the answer to
their callback has been that there is none. -/
theorem headersDone_keeps {left : Option Nat} (hph : ph = .ended left)
    (hleft : s.parser.flags.skipBody = false → left = s.parser.bodyLength) (hm : s.mark = none) :
    Keeps ph (headersDone ch) s (Goes ch) := by
  subst hph
  simp only [headersDone, keeps_strictCheck, keeps_bind, keeps_setParser, keeps_gets, keeps_ite,
    keeps_updateState, keeps_callbackNotify, keeps_returnAfter, Phase.next.eq_def,
    Option.some.injEq, exists_eq_left']
  intro _
  refine ⟨fun _ => goes_newMessage rfl hm, fun hup => ⟨fun _ => goes_newMessage rfl hm, fun hskip =>
    ⟨fun _ => ?_, fun hchunked => ⟨fun _ => goes_newMessage rfl hm, fun hzero =>
      ⟨fun hlen => ?_, fun hlen => ⟨fun _ => goes_newMessage rfl hm, fun _ => ?_⟩⟩⟩⟩⟩⟩
  · simp [hr, Goes, Scan.Fits, Scan.advance, hm, Phase.beforeChunk]
  -- the length is the one that the headers give
  · have hbody : left = some s.parser.contentLength := by
      rw [hleft (by simpa using hskip), Parser.bodyLength, if_neg, if_neg hlen]
      rintro (hc | ⟨hu, hconnect⟩)
      · exact hchunked hc
      · exact hup ⟨hu, .inl hconnect⟩
    simp_all [Goes, Scan.Fits, Scan.advance, Phase.BodyIs, Marked]
  · have hbody : left = none := by
      rw [hleft (by simpa using hskip), Parser.bodyLength, if_neg, if_pos (not_not.mp hlen)]
      rintro (hc | ⟨hu, hconnect⟩)
      · exact hchunked hc
      · exact hup ⟨hu, .inl hconnect⟩
    simp_all [Goes, Scan.Fits, Scan.advance, Phase.BodyIs, Marked]

theorem headersAlmostDone_keeps (hb : ph.beforeField s.parser.flags.trailing) (hm : s.mark = none) :
    Keeps ph (headersAlmostDone ch) s (Goes ch) := by
  simp only [headersAlmostDone, keeps_strictCheck, keeps_bind, keeps_gets, keeps_ite,
    keeps_updateState, keeps_callbackNotifyNoadvance, keeps_error, keeps_setParser, keeps_ask,
    keeps_setFlags]
  intro _
  refine ⟨fun htr => ?_, fun htr => ⟨fun _ => Errno.noConfusion, fun _ => ?_⟩⟩
  · rw [htr] at hb
    refine ⟨.last, beforeField_chunkComplete hb _, ?_⟩
    exact messageDone_keeps (fun _ => rfl) hm
  · rw [Bool.eq_false_iff.mpr htr] at hb
    -- the answer decides whether there is a body, but not how long it is
    refine ⟨_, beforeField_headersComplete hb _, fun r => ⟨fun _ => ?_, fun _ =>
      ⟨fun _ => ?_, fun _ => ⟨fun _ => ?_, fun _ => Errno.noConfusion⟩⟩⟩⟩
    · exact headersDone_keeps hr rfl (fun _ => rfl) hm
    · exact headersDone_keeps hr rfl (fun hskip => Bool.noConfusion hskip) hm
    · exact headersDone_keeps hr rfl (fun hskip => Bool.noConfusion hskip) hm

theorem headerFieldStart_keeps (hb : ph.beforeField s.parser.flags.trailing) (hm : s.mark = none) :
    Keeps ph (headerFieldStart ch) s (Goes ch) := by
  simp only [headerFieldStart, keeps_ite, keeps_updateState, keeps_bind, keeps_error, keeps_setMark,
    keeps_setParser]
  refine ⟨fun _ => ⟨⟨hb, by simp [Scan.advance, hm]⟩, .inl hr⟩, fun _ => ⟨fun _ => ?_, fun _ =>
    ⟨fun _ => Errno.noConfusion, fun _ => ⟨⟨inField_of_beforeField hb, [ch], ?_⟩, .inl hr⟩⟩⟩⟩
  · exact headersAlmostDone_keeps hr hb hm
  · simp [Scan.advance, hm]

theorem headerValueStart_keeps (hv : ph.afterField s.parser.flags.trailing) (hm : s.mark = none) :
    Keeps ph (headerValueStart ch) s (Goes ch) := by
  unfold headerValueStart
  cases h : s.parser.headerState <;>
    simp [hm, h, hv, hr, Goes, Scan.Fits, Scan.advance]

theorem headerField_keeps (hst : s.parser.state = .headerField) (hf : s.Fits ph) :
    Keeps ph (headerField ch) s (Goes ch) := by
  obtain ⟨hin, bs, hm⟩ :
      ph.inField s.parser.flags.trailing ∧ ∃ bs, s.mark = some (.headerField, bs) := by
    simpa [Scan.Fits, hst] using hf
  simp only [headerField, keeps_bind, keeps_gets, keeps_ite, keeps_setParser, keeps_modify]
  refine ⟨fun _ => ?_, fun _ => ?_⟩
  · simp [hr, Goes, Scan.Fits, Scan.advance, fieldChar_state, hst, fieldChar_trailing, hin, hm]
  · apply keeps_countHeaderSize
    intro n
    simp only [keeps_updateState, keeps_error, keeps_callbackData, hm, if_true,
      inField_headerField hin]
    refine ⟨fun _ => ⟨_, rfl, ?_⟩, fun _ => Errno.noConfusion⟩
    simp [hr, Goes, Scan.Fits, Scan.advance, Phase.afterField]

theorem headerValue_keeps (hst : s.parser.state = .headerValue) (hf : s.Fits ph) :
    Keeps ph (headerValue ch) s (Goes ch) := by
  obtain ⟨hv, bs, hm⟩ :
      ph.afterField s.parser.flags.trailing ∧ ∃ bs, s.mark = some (.headerValue, bs) := by
    simpa [Scan.Fits, hst] using hf
  simp only [headerValue, keeps_bind, keeps_gets, id_eq, keeps_ite, keeps_modify, keeps_updateState,
    keeps_error, keeps_callbackData, hm, if_true, afterField_headerValue hv, Option.some.injEq,
    exists_eq_left']
  refine ⟨fun _ => ?_, fun _ => ⟨fun _ => ?_, fun _ => ⟨fun _ => ?_, fun _ => ⟨fun _ => ?_,
    fun _ => ?_⟩⟩⟩⟩
  · simp [hr, Goes, Scan.Fits, Scan.advance, hst, hv]
  · apply keeps_countHeaderSize
    intro n
    simp [hr, Goes, Scan.Fits, Scan.advance]
  · apply keeps_countHeaderSize
    intro n
    simp [headerAlmostDone, afterField_headerValue hv, hr, Goes, Scan.Fits, Scan.advance]
  · exact Errno.noConfusion
  · refine valueChar_keeps.mono ?_
    rintro ph' _ s' ⟨rfl, hst', hm', htr, hr'⟩
    simp [Goes, Scan.Fits, Scan.advance, hst', hst, htr, hv, hm', hm, hr', hr]

theorem headerValueLws_keeps {tr : Bool} (htr : s.parser.flags.trailing = tr) (hm : s.mark = none) :
    Keeps (.value tr) (headerValueLws ch) s (Goes ch) := by
  simp only [headerValueLws, keeps_ite, keeps_bind, keeps_setParser, keeps_updateState]
  refine ⟨fun _ => ?_, fun _ => ?_⟩
  · apply headerValueStart_keeps
    · exact hr
    · simp [Phase.afterField, htr]
    · exact hm
  · apply headerFieldStart_keeps
    · exact hr
    · rw [finishValue_trailing, htr]
      exact beforeField_value tr
    · exact hm

theorem headerValueDiscardLws_keeps (hv : ph.afterField s.parser.flags.trailing)
    (hm : s.mark = none) : Keeps ph (headerValueDiscardLws ch) s (Goes ch) := by
  simp only [headerValueDiscardLws, keeps_ite, keeps_bind, keeps_setParser, keeps_updateState,
    keeps_gets, keeps_error, keeps_setMark, keeps_callbackData, hm, Option.map_none, reduceCtorEq,
    if_false, if_true, afterField_headerValue hv, Option.some.injEq, exists_eq_left']
  refine ⟨fun _ => ?_, fun _ => ⟨fun _ => Errno.noConfusion, fun _ => ?_⟩⟩
  · simp [hr, Goes, Scan.Fits, Scan.advance, hv]
  · apply headerFieldStart_keeps
    · exact hr
    · rw [finishValue_trailing]
      exact beforeField_value _
    · rfl

theorem startReq_keeps (hph : ph = .idle) (hm : s.mark = none)
    (hst : s.parser.state = .startReq) : Keeps ph (startReq ch) s (Goes ch) := by
  subst hph
  unfold startReq resetMessage
  cases firstMethod ch <;>
    simp [hr, Goes, Scan.Fits, Scan.advance, hm, hst, Phase.next.eq_def]

theorem reqMethod_keeps (hst : s.parser.state = .reqMethod) (hf : s.Fits ph) :
    Keeps ph (reqMethod ch) s (Goes ch) := by
  obtain ⟨hph, htr, hm⟩ : ph = .line ∧ s.parser.flags.trailing = false ∧ s.mark = none := by
    simpa [Scan.Fits, hst] using hf
  unfold reqMethod
  cases h : otherMethod s.parser.method s.parser.index ch <;>
    simp [hph, htr, hm, hst, h, hr, Goes, Scan.Fits, Scan.advance]

theorem urlChar_keeps (htr : s.parser.flags.trailing = false) {bs : Bytes}
    (hm : s.mark = some (.url, bs)) : Keeps .line (urlChar ch) s (Goes ch) := by
  simp only [urlChar, keeps_bind, keeps_gets, keeps_updateState, keeps_ite, keeps_error, keeps_pure]
  refine ⟨fun _ => Errno.noConfusion, fun hlive => ?_⟩
  have hurl := (parseUrlChar_reopens s.parser.state ch).resolve_left hlive
  refine ⟨fits_url hurl htr ?_, .inl hr⟩
  simp [Scan.advance, hm]

theorem reqUrl_keeps (htr : s.parser.flags.trailing = false) {bs : Bytes}
    (hm : s.mark = some (.url, bs)) : Keeps .line (reqUrl ch) s (Goes ch) := by
  simp only [reqUrl, keeps_ite, keeps_bind, keeps_updateState, keeps_setParser, keeps_callbackData,
    hm, if_true, Phase.next.eq_def, Option.some.injEq, exists_eq_left']
  refine ⟨fun _ => ?_, fun _ => ⟨fun _ => ?_, fun _ => urlChar_keeps hr htr hm⟩⟩
  · simp [hr, Goes, Scan.Fits, Scan.advance, htr]
  · by_cases hcr : ch = CR <;> simp [hcr, hr, Goes, Scan.Fits, Scan.advance, htr, Phase.beforeField]

theorem reqSpacesBeforeUrl_keeps (hst : s.parser.state = .reqSpacesBeforeUrl)
    (htr : s.parser.flags.trailing = false) (hm : s.mark = none) :
    Keeps .line (reqSpacesBeforeUrl ch) s (Goes ch) := by
  simp only [reqSpacesBeforeUrl, keeps_ite, keeps_pure, keeps_bind, keeps_setMark, keeps_setParser,
    hm, Option.map_none, reduceCtorEq, if_false]
  refine ⟨fun _ => ?_, fun _ => urlChar_keeps hr htr rfl⟩
  simp [hr, Goes, Scan.Fits, Scan.advance, hst, htr, hm]

theorem resStatus_keeps (hst : s.parser.state = .resStatus) (htr : s.parser.flags.trailing = false)
    {bs : Bytes} (hm : s.mark = some (.status, bs)) : Keeps .line (resStatus ch) s (Goes ch) := by
  simp [resStatus, keeps_callbackData, hm, hst, htr, Phase.next.eq_def, Phase.beforeField, hr, Goes,
    Scan.Fits, Scan.advance]

theorem resStatusStart_keeps (htr : s.parser.flags.trailing = false) (hm : s.mark = none) :
    Keeps .line (resStatusStart ch) s (Goes ch) := by
  simp only [resStatusStart, keeps_bind, keeps_setMark, keeps_setParser, keeps_ite, keeps_pure, hm,
    Option.map_none, reduceCtorEq, if_false]
  refine ⟨fun _ => resStatus_keeps hr rfl htr rfl, fun _ => ?_⟩
  simp [hr, Goes, Scan.Fits, Scan.advance, htr]

theorem resStatusCode_keeps (hst : s.parser.state = .resStatusCode)
    (htr : s.parser.flags.trailing = false) (hm : s.mark = none) :
    Keeps .line (resStatusCode ch) s (Goes ch) := by
  simp only [resStatusCode, keeps_ite, keeps_bind, keeps_updateState, keeps_setParser, keeps_gets,
    keeps_error, keeps_pure]
  refine ⟨fun _ => ⟨fun _ => ?_, fun _ => ⟨fun _ => ?_, fun _ => Errno.noConfusion⟩⟩, fun _ =>
    ⟨fun _ => Errno.noConfusion, fun _ => ?_⟩⟩
  · simp [hr, Goes, Scan.Fits, Scan.advance, htr, hm]
  · exact resStatusStart_keeps hr htr hm
  · simp [hr, Goes, Scan.Fits, Scan.advance, hst, htr, hm]

/-! ## Bodies -/

theorem bodyIdentity_keeps (hst : s.parser.state = .bodyIdentity) (hf : s.Fits ph) :
    Keeps ph (bodyIdentity ch) s (Goes ch) := by
  obtain ⟨hpos, n, hm, hb⟩ : s.parser.contentLength ≠ 0 ∧
      ∃ n, Marked .body s.mark n ∧ ph.BodyIs (some (s.parser.contentLength + n)) := by
    simpa [Scan.Fits, hst] using hf
  obtain ⟨bs, hmark, rfl⟩ := marked_setMark hm
  simp only [bodyIdentity, keeps_bind, keeps_setMark, hmark, keeps_setParser, keeps_gets, keeps_ite,
    keeps_updateState, keeps_callbackData, keeps_pure, if_true]
  refine ⟨fun hlast => ?_, fun hmore => ?_⟩
  · -- the last byte of the body is reported with the others
    refine ⟨.body (some 0), bodyIs_next hb ?_ _, messageDone_keeps (fun _ => rfl) rfl⟩
    simp only [bodyLeft, List.length_append, List.length_singleton]
    rw [if_pos (by omega)]
    congr 2
    omega
  · simp only [hr, Goes, Scan.Fits, Scan.advance, hst, Option.map_some]
    refine ⟨⟨hmore, (bs ++ [ch]).length, .inr ⟨_, rfl, rfl⟩, ?_⟩, .inl trivial⟩
    have hlen : s.parser.contentLength - 1 + (bs ++ [ch]).length =
        s.parser.contentLength + bs.length := by
      rw [List.length_append, List.length_singleton]
      omega
    rw [hlen]
    exact hb

theorem bodyIdentityEof_keeps (hst : s.parser.state = .bodyIdentityEof) (hf : s.Fits ph) :
    Keeps ph (setMark .body) s (Goes ch) := by
  obtain ⟨hb, n, hm⟩ : ph.BodyIs none ∧ ∃ n, Marked .body s.mark n := by
    simpa [Scan.Fits, hst] using hf
  obtain ⟨bs, hmark, rfl⟩ := marked_setMark hm
  simp only [keeps_setMark, hmark, hr, Goes, Scan.Fits, Scan.advance, hst, Option.map_some]
  exact ⟨⟨hb, _, .inr ⟨_, rfl, rfl⟩⟩, .inl trivial⟩

theorem chunkData_keeps (hst : s.parser.state = .chunkData) (hf : s.Fits ph) :
    Keeps ph chunkData s (Goes ch) := by
  obtain ⟨hpos, n, hm, hph⟩ : s.parser.contentLength ≠ 0 ∧
      ∃ n, Marked .body s.mark n ∧ ph = .chunk (s.parser.contentLength + n) := by
    simpa [Scan.Fits, hst] using hf
  obtain ⟨bs, hmark, rfl⟩ := marked_setMark hm
  have hlen : s.parser.contentLength + bs.length =
      s.parser.contentLength - 1 + (bs ++ [ch]).length := by
    rw [List.length_append, List.length_singleton]
    omega
  rw [hlen] at hph
  simp only [chunkData, keeps_bind, keeps_setMark, hmark, keeps_setParser, keeps_gets, keeps_ite,
    keeps_updateState, keeps_pure]
  refine ⟨fun hlast => ?_, fun hmore => ?_⟩
  · simp only [hr, Goes, Scan.Fits, Scan.advance, Option.map_some]
    rw [hlast, Nat.zero_add] at hph
    exact ⟨⟨_, .inr ⟨_, rfl, rfl⟩, hph⟩, .inl trivial⟩
  · simp only [hr, Goes, Scan.Fits, Scan.advance, hst, Option.map_some]
    exact ⟨⟨hmore, _, .inr ⟨_, rfl, rfl⟩, hph⟩, .inl trivial⟩

theorem chunkDataAlmostDone_keeps (hst : s.parser.state = .chunkDataAlmostDone) (hf : s.Fits ph) :
    Keeps ph (chunkDataAlmostDone ch) s (Goes ch) := by
  obtain ⟨n, hm, rfl⟩ : ∃ n, Marked .body s.mark n ∧ ph = .chunk n := by
    simpa [Scan.Fits, hst] using hf
  simp only [chunkDataAlmostDone, keeps_strictCheck, keeps_bind, keeps_updateState,
    keeps_callbackData]
  intro _
  rcases hm with ⟨hm, rfl⟩ | ⟨bs, hm, rfl⟩
  · simp [hm, hr, Goes, Scan.Fits, Scan.advance]
  · simp [hm, Phase.next.eq_def, hr, Goes, Scan.Fits, Scan.advance]

theorem chunkSizeAlmostDone_keeps (hb : ph.beforeChunk) (hm : s.mark = none) :
    Keeps ph (chunkSizeAlmostDone ch) s (Goes ch) := by
  simp only [chunkSizeAlmostDone, keeps_strictCheck, keeps_bind, keeps_setParser, keeps_gets,
    keeps_ite, keeps_setFlags, keeps_updateState, keeps_callbackNotify, beforeChunk_chunkHeader hb,
    Option.some.injEq, exists_eq_left']
  intro _
  refine ⟨fun hzero => ?_, fun hpos => ?_⟩
  · simp [Parser.chunkPhase, hzero, hr, Goes, Scan.Fits, Scan.advance, hm, Phase.beforeField]
  · simp [Parser.chunkPhase, hpos, hr, Goes, Scan.Fits, Scan.advance, hm, Marked]

theorem chunkSizeStart_keeps (hb : ph.beforeChunk) (hm : s.mark = none) :
    Keeps ph (chunkSizeStart ch) s (Goes ch) := by
  unfold chunkSizeStart
  cases unhex ch <;> simp [hr, Goes, Scan.Fits, Scan.advance, hb, hm]

theorem chunkSize_keeps (hst : s.parser.state = .chunkSize) (hb : ph.beforeChunk)
    (hm : s.mark = none) : Keeps ph (chunkSize ch) s (Goes ch) := by
  unfold chunkSize
  cases unhex ch <;> simp [hr, Goes, Scan.Fits, Scan.advance, hst, hb, hm]

/-! ## The loop -/

theorem dispatch_keeps (hf : s.Fits ph) : Keeps ph (dispatch s.parser.state ch) s (Goes ch) := by
  cases h : s.parser.state
  case headerField => exact headerField_keeps hr h hf
  case headerValue => exact headerValue_keeps hr h hf
  case reqMethod => exact reqMethod_keeps hr h hf
  case bodyIdentity => exact bodyIdentity_keeps hr h hf
  case bodyIdentityEof => exact bodyIdentityEof_keeps hr h hf
  case chunkData => exact chunkData_keeps hr h hf
  case chunkDataAlmostDone => exact chunkDataAlmostDone_keeps hr h hf
  all_goals simp only [Scan.Fits, h] at hf
  case headerFieldStart => exact headerFieldStart_keeps hr hf.1 hf.2
  case headersAlmostDone => exact headersAlmostDone_keeps hr hf.1 hf.2
  case headerValueStart => exact headerValueStart_keeps hr hf.1 hf.2
  case headerValueDiscardLws => exact headerValueDiscardLws_keeps hr hf.1 hf.2
  case headerValueLws =>
    rw [hf.1]
    exact headerValueLws_keeps hr rfl hf.2
  case startReq => exact startReq_keeps hr hf.1 hf.2 h
  case chunkSizeStart => exact chunkSizeStart_keeps hr hf.1 hf.2
  case chunkSize => exact chunkSize_keeps hr h hf.1 hf.2
  case chunkSizeAlmostDone => exact chunkSizeAlmostDone_keeps hr hf.1 hf.2
  -- in the states left the phase is determined
  case resStatus =>
    obtain ⟨rfl, htr, bs, hm⟩ := hf
    exact resStatus_keeps hr h htr hm
  case reqSchema | reqSchemaSlash | reqSchemaSlashSlash | reqServerStart =>
    obtain ⟨rfl, htr, bs, hm⟩ := hf
    simp [dispatch, reqUrlStart, urlChar_keeps hr htr hm]
  case reqServer | reqServerWithAt | reqPath | reqQueryStringStart | reqQueryString |
      reqFragmentStart | reqFragment =>
    obtain ⟨rfl, htr, bs, hm⟩ := hf
    exact reqUrl_keeps hr htr hm
  case resStatusStart =>
    obtain ⟨rfl, htr, hm⟩ := hf
    exact resStatusStart_keeps hr htr hm
  case resStatusCode =>
    obtain ⟨rfl, htr, hm⟩ := hf
    exact resStatusCode_keeps hr h htr hm
  case reqSpacesBeforeUrl =>
    obtain ⟨rfl, htr, hm⟩ := hf
    exact reqSpacesBeforeUrl_keeps hr h htr hm
  case headerValueDiscardWs =>
    obtain ⟨hv, hm⟩ := hf
    simp [dispatch, headerValueDiscardWs, headerValueStart_keeps, hr, Goes, Scan.Fits, Scan.advance,
      h, hv, hm]
  case dead | startReqOrRes | startRes =>
    obtain ⟨rfl, hm⟩ := hf
    simp [dispatch, startReqOrRes, startRes, resetMessage, startReq_keeps, hr, Phase.next.eq_def,
      Goes, Scan.Fits, Scan.advance, h, hm]
  case chunkDataDone =>
    obtain ⟨rfl, hm⟩ := hf
    simp [dispatch, chunkDataDone, Phase.next.eq_def, Phase.beforeChunk, hr, Goes, Scan.Fits,
      Scan.advance, hm]
  case headerAlmostDone | headerValueDiscardWsAlmostDone | chunkParameters =>
    obtain ⟨hv, hm⟩ := hf
    simp [dispatch, headerAlmostDone, chunkParameters, hr, Goes, Scan.Fits, Scan.advance, h, hv, hm]
  all_goals
    obtain ⟨rfl, htr, hm⟩ := hf
    simp [dispatch, expectChar, httpMajor, httpDot, httpMinor, resHttpEnd, resFirstStatusCode,
      resOrRespH, reqHttpStart, reqHttpEnd, reqLineAlmostDone, Phase.beforeField, hr, Goes,
      Scan.Fits, Scan.advance, h, htr, hm]

/-- **A byte keeps to the order**, in every state of the parser. -/
theorem turn_keeps (hf : s.Fits ph) : Keeps ph (turn ch) s (Goes ch) := by
  simp only [turn, keeps_bind, keeps_gets, id_eq, keeps_ite]
  refine ⟨fun _ => ?_, fun _ => dispatch_keeps hr hf⟩
  apply keeps_countHeaderSize
  intro n
  exact dispatch_keeps hr (s := { s with parser := { s.parser with nread := n } }) hf

end

end

/-! ## A call -/

section

variable {ph : Phase} {s : Scan}

/-- The parser between two calls. -/
def Parser.Fits (ph : Phase) (p : Parser) : Prop := (Scan.enter p).Fits ph

/-- Where a call is left phase and parser agree, unless it is left with an error. -/
def Left : Phase → Stop → Scan → Prop
  | _, .failed _, s => s.parser.errno ≠ .ok
  | ph, .returned _, s => s.parser.Fits ph

theorem left_stop {e : Exit} (rest : Bytes) (he : s.parser.errno ≠ .ok) :
    Left ph (e.stop rest) s := by
  cases e <;> exact he

theorem enter_fits_of_noMark (hf : s.Fits ph) (hm : s.mark = none) : s.parser.Fits ph := by
  unfold Parser.Fits Scan.enter
  unfold Scan.Fits at hf ⊢
  cases h : s.parser.state <;> simp_all [State.reopens]

theorem mark_of_idle (hf : s.Fits .idle) : s.mark = none := by
  unfold Scan.Fits at hf
  cases h : s.parser.state <;>
    simp_all [Phase.beforeField, Phase.inField, Phase.afterField, Phase.beforeChunk, Phase.BodyIs]

/-- The loop, by induction on the bytes of the call. -/
theorem scan_keeps (d : Bytes) (hr : s.returned = false) (hf : s.Fits ph) :
    (scan d s).Obeys Phase.next Left ph fun ph _ s => s.Fits ph := by
  induction d generalizing s ph with
  | nil => exact hf
  | cons ch rest ih =>
    rw [scan_cons, Inter.obeys_bind, Inter.obeys_mapExit]
    refine Inter.Obeys.mono (turn_keeps hr hf) ?_ fun _ _ _ he => left_stop rest he
    rintro ph₁ ⟨⟩ s₁ ⟨hf₁, hr₁⟩
    cases hret : (s₁.advance ch).returned with
    | false =>
      rw [goOn_of_not_returned hret]
      exact ih hret hf₁
    | true =>
      -- the call returns between two messages, with no span open
      have hret₁ : s₁.returned = true := hret
      obtain rfl : ph₁ = .idle := hr₁.resolve_left (by rw [hret₁]; exact Bool.noConfusion)
      rw [goOn_of_returned hret]
      exact enter_fits_of_noMark hf₁ (mark_of_idle hf₁)

/-- The span that is open when the bytes run out is reported, and goes on in the next call. -/
theorem enter_fits_of_mark {k : Span} {bs : Bytes} (hf : s.Fits ph) (hm : s.mark = some (k, bs)) :
    ∃ ph', ph.next (.data k bs, s.parser) = some ph' ∧ s.parser.Fits ph' := by
  unfold Parser.Fits Scan.enter
  cases h : s.parser.state
  all_goals simp only [Scan.Fits, h, hm, Option.some.injEq, Prod.mk.injEq, reduceCtorEq, and_false,
    exists_and_left, exists_eq', and_true] at hf
  case headerField =>
    obtain ⟨hin, rfl⟩ := hf
    refine ⟨_, inField_headerField hin bs _, ?_⟩
    simp [Scan.Fits, h, State.reopens, inField_field]
  case headerValue =>
    obtain ⟨hv, rfl⟩ := hf
    refine ⟨_, afterField_headerValue hv bs _, ?_⟩
    simp [Scan.Fits, h, State.reopens, afterField_value]
  case chunkData =>
    obtain ⟨hpos, n, hmark, rfl⟩ := hf
    obtain ⟨rfl, rfl⟩ := hmark.body
    refine ⟨.chunk s.parser.contentLength, by simp [Phase.next.eq_def], ?_⟩
    simp [Scan.Fits, h, State.reopens, Marked, hpos]
  case chunkDataAlmostDone =>
    obtain ⟨n, hmark, rfl⟩ := hf
    obtain ⟨rfl, rfl⟩ := hmark.body
    refine ⟨.chunk 0, by simp [Phase.next.eq_def], ?_⟩
    simp [Scan.Fits, h, State.reopens, Marked]
  case bodyIdentity =>
    obtain ⟨hpos, n, hmark, hb⟩ := hf
    obtain ⟨rfl, rfl⟩ := hmark.body
    refine ⟨.body (some s.parser.contentLength), bodyIs_next hb (by simp [bodyLeft]) _, ?_⟩
    simp [Scan.Fits, h, State.reopens, Marked, hpos, Phase.BodyIs]
  case bodyIdentityEof =>
    obtain ⟨hb, n, hmark⟩ := hf
    obtain ⟨rfl, -⟩ := hmark.body
    refine ⟨.body none, bodyIs_next hb rfl _, ?_⟩
    simp [Scan.Fits, h, State.reopens, Marked, Phase.BodyIs]
  -- the spans of the start line
  all_goals
    obtain ⟨rfl, htr, rfl⟩ := hf
    exact ⟨.line, rfl, by simp [Scan.Fits, h, htr, State.reopens]⟩

theorem leftover_keeps (hf : s.Fits ph) :
    (leftover s).Obeys Phase.next Left ph fun ph _ s => s.parser.Fits ph := by
  cases hm : s.mark with
  | none =>
    simp only [leftover, hm]
    exact enter_fits_of_noMark hf hm
  | some m =>
    obtain ⟨k, bs⟩ := m
    have hspan : Keeps ph (callbackData k .here []) s fun ph _ s => s.parser.Fits ph := by
      simp only [keeps_callbackData, hm, if_true, List.append_nil]
      exact enter_fits_of_mark hf hm
    simp only [leftover, hm]
    refine (Inter.obeys_mapExit _ _ _).mpr (Inter.Obeys.mono hspan (fun _ _ _ hs => hs) ?_)
    exact fun _ _ _ he => he

theorem finish_keeps (hf : s.Fits ph) :
    (finish s).Obeys Phase.next Left ph fun ph _ s => s.parser.Fits ph := by
  rcases finish_cases s with ⟨p, hp, heq⟩ | ⟨n, heq⟩
  · rw [heq]
    exact hp
  · rw [heq]
    exact leftover_keeps (s := { s with parser := { s.parser with nread := n } }) hf

theorem executeBody_keeps (d : Bytes) (hr : s.returned = false) (hf : s.Fits ph) :
    (executeBody d s).Obeys Phase.next Left ph fun ph _ s => s.parser.Fits ph := by
  rw [executeBody_eq, Inter.obeys_bind]
  exact (scan_keeps d hr hf).mono (fun _ _ _ hs => finish_keeps hs) fun _ _ _ he => he

/-- A body that the end of the stream ends is the only message that may still be open. -/
theorem executeEof_keeps {p : Parser} (hf : p.Fits ph) :
    (executeEof (Scan.enter p)).Obeys Phase.next (fun _ _ _ => True) ph fun _ _ _ => True := by
  have hstate : (Scan.enter p).parser.state = p.state := rfl
  show InterM.Obeys Phase.next _ ph executeEof (Scan.enter p) _
  unfold executeEof
  rw [InterM.obeys_bind, obeys_gets, hstate]
  cases h : p.state
  case bodyIdentityEof =>
    obtain ⟨hb, -⟩ : ph.BodyIs none ∧ ∃ n, Marked .body (Scan.enter p).mark n := by
      simpa [Parser.Fits, Scan.Fits, hstate, h] using hf
    have hcall : Keeps ph (callbackNotifyNoadvance .messageComplete) (Scan.enter p)
        fun _ _ _ => True := by
      rw [keeps_callbackNotifyNoadvance]
      rcases hb with rfl | rfl <;> exact ⟨.idle, rfl, trivial⟩
    refine (Inter.obeys_mapExit _ _ _).mpr (Inter.Obeys.mono hcall (fun _ _ _ hs => hs) ?_)
    exact fun _ _ _ _ => trivial
  all_goals exact trivial

end

/-! ## Calls -/

section

variable {τ : Type} {h : Event → τ → Int × τ} {I : Phase → τ → Prop}

/-- The owner's data follow the phase, and the parser, unless it has failed, is where they are. -/
def Told (I : Phase → τ → Prop) (x : Parser × τ) : Prop :=
  ∃ ph, I ph x.2 ∧ (x.1.errno = .ok → x.1.Fits ph)

variable (hI : ∀ ph e ph' t, Phase.next ph e = some ph' → I ph t → I ph' (h e t).2)
include hI

/-- One call with bytes. -/
theorem execute_told {p : Parser} {t : τ} {d : Bytes} (hd : d ≠ []) (hp : Told I (p, t)) :
    Told I (execute h p d t).2 := by
  by_cases he : p.errno = .ok
  · obtain ⟨ph, ht, hfits⟩ := hp
    obtain ⟨ph', ht', hok, herror⟩ := (executeBody_keeps d rfl (hfits he)).run hI ht
    rw [execute_eq he hd]
    refine ⟨ph', ht', ?_⟩
    rcases hrun : ((executeBody d (Scan.enter p)).run h t).1 with ⟨⟨n⟩ | ⟨n⟩, s⟩ | ⟨⟨⟩, s⟩
    · exact fun hs => absurd hs (herror _ _ hrun)
    · exact fun _ => herror _ _ hrun
    · exact fun _ => hok _ _ hrun
  · unfold execute
    rw [if_pos he]
    exact hp

/-- The call that reports the end of the stream. -/
theorem execute_eof {p : Parser} {t : τ} (hp : Told I (p, t)) :
    ∃ ph, I ph (execute h p [] t).2.2 := by
  obtain ⟨ph, ht, hfits⟩ := hp
  by_cases he : p.errno = .ok
  · have hkeeps : (executeEof (Scan.enter p)).Obeys Phase.next (fun _ _ _ => True) ph
        fun _ _ _ => True := by
      exact executeEof_keeps (hfits he)
    obtain ⟨ph', ht', -⟩ := hkeeps.run hI ht
    refine ⟨ph', ?_⟩
    unfold execute
    rw [if_neg (not_not.mpr he), if_pos rfl]
    generalize (executeEof (Scan.enter p)).run h t = out at ht' ⊢
    obtain ⟨⟨n, s⟩ | ⟨⟨⟩, s⟩, t⟩ := out <;> exact ht'
  · unfold execute
    rw [if_pos he]
    exact ⟨ph, ht⟩

end

theorem run_callback {τ : Type} (h : Event → τ → Int × τ) (cb : Callback) (er : Exit) (s : Scan)
    (t : τ) :
    (callback cb er s).run h t =
      if (h (cb, s.parser) t).1 = 0 then (.ok ((), s), (h (cb, s.parser) t).2)
      else (.error (er, { s with parser := { s.parser with errno := cb.errno } }),
        (h (cb, s.parser) t).2) := by
  show ((if (h (cb, s.parser) t).1 ≠ 0 then _ else pure () : M Unit) s).run h
    (h (cb, s.parser) t).2 = _
  by_cases hr : (h (cb, s.parser) t).1 = 0
  · rw [if_neg (not_not.mpr hr), if_pos hr]
    rfl
  · rw [if_pos hr, if_neg hr]
    rfl

/-- Such a call ends a body, finds nothing open, or fails. -/
theorem execute_eof_cases {τ : Type} (h : Event → τ → Int × τ) (p : Parser) (t : τ) :
    (execute h p [] t).2 = (p, t) ∨ (execute h p [] t).2.1.errno ≠ .ok ∨
      p.state = .bodyIdentityEof ∧
        (execute h p [] t).2 = (p, (h (.messageComplete, p) t).2) := by
  by_cases he : p.errno = .ok
  · have hstate : (Scan.enter p).parser.state = p.state := rfl
    unfold execute
    rw [if_neg (not_not.mpr he), if_pos rfl]
    unfold executeEof
    rw [InterM.bind_apply, gets_apply, bind_ret, hstate]
    cases p.state
    case bodyIdentityEof =>
      dsimp only
      rw [mapExit_apply, run_mapExit, callbackNotifyNoadvance, run_callback]
      by_cases hr : (h (.messageComplete, (Scan.enter p).parser) t).1 = 0
      · rw [if_pos hr]
        exact .inr (.inr ⟨rfl, rfl⟩)
      · rw [if_neg hr]
        exact .inr (.inl Errno.noConfusion)
    all_goals first | exact .inl rfl | exact .inr (.inl Errno.noConfusion)
  · left
    unfold execute
    rw [if_pos he]

/-- How many bytes of a body or a chunk, whose length has been given, have not been reported. -/
def Phase.left : Phase → Nat
  | ended left => left.getD 0
  | body left => left.getD 0
  | chunk left => left
  | _ => 0

/-- How many of them the parser still waits for. -/
def Parser.outstanding (p : Parser) : Nat :=
  if p.errno = .ok ∧ (p.state = .bodyIdentity ∨ p.state = .chunkData) then p.contentLength else 0

theorem outstanding_le_left {ph : Phase} {p : Parser} (hp : p.errno = .ok → p.Fits ph) :
    p.outstanding ≤ ph.left := by
  unfold Parser.outstanding
  split
  · next h =>
    obtain ⟨he, hstate⟩ := h
    have hfits := hp he
    rcases hstate with hst | hst
    · obtain ⟨-, n, -, hb⟩ : p.contentLength ≠ 0 ∧ ∃ n, Marked .body (Scan.enter p).mark n ∧
          ph.BodyIs (some (p.contentLength + n)) := by
        simpa [Parser.Fits, Scan.Fits, show (Scan.enter p).parser = p from rfl, hst] using hfits
      rcases hb with rfl | rfl <;> simp [Phase.left]
    · obtain ⟨-, n, -, rfl⟩ : p.contentLength ≠ 0 ∧ ∃ n, Marked .body (Scan.enter p).mark n ∧
          ph = .chunk (p.contentLength + n) := by
        simpa [Parser.Fits, Scan.Fits, show (Scan.enter p).parser = p from rfl, hst] using hfits
      simp [Phase.left]
  · exact Nat.zero_le _

/-- What a callback does to the phase: it gives the length of a body or of a chunk, it reports a
part of the bytes that are left, or there is nothing left of a body before and after it. -/
theorem next_cases {ph ph' : Phase} {cb : Callback} {p : Parser}
    (hnext : ph.next (cb, p) = some ph') :
    cb = .headersComplete ∧ ph' = .ended p.bodyLength ∨
      cb = .chunkHeader ∧ ph' = p.chunkPhase ∨
      (∃ bs, cb = .data .body bs ∧ (ph.BodyIs none ∧ ph' = .body none ∨
        bs.length + ph'.left = ph.left ∧ ¬ ph'.BodyIs none)) ∨
      (cb ≠ .headersComplete ∧ cb ≠ .chunkHeader ∧ ∀ bs, cb ≠ .data .body bs) ∧
        ph'.left = 0 ∧ ¬ ph'.BodyIs none := by
  have hbody (left : Option Nat) (bs : Bytes) (hph : ph.BodyIs left)
      (hleft : (bodyLeft left bs.length).map Phase.body = some ph') :
      ph.BodyIs none ∧ ph' = .body none ∨
        bs.length + ph'.left = ph.left ∧ ¬ ph'.BodyIs none := by
    cases left with
    | none =>
      cases hleft
      exact .inl ⟨hph, rfl⟩
    | some n =>
      rw [bodyLeft] at hleft
      split at hleft
      · next hle =>
        cases hleft
        refine .inr ⟨?_, by simp [Phase.BodyIs]⟩
        rcases hph with rfl | rfl
        · exact Nat.add_sub_cancel' hle
        · exact Nat.add_sub_cancel' hle
      · cases hleft
  rw [Phase.next.eq_def] at hnext
  dsimp only at hnext
  split at hnext
  case h_5 | h_12 =>
    cases hnext
    exact .inl ⟨rfl, rfl⟩
  case h_15 | h_22 =>
    cases hnext
    exact .inr (.inl ⟨rfl, rfl⟩)
  case h_14 left bs =>
    exact .inr (.inr (.inl ⟨bs, rfl, hbody left bs (.inl rfl) hnext⟩))
  case h_17 left bs =>
    exact .inr (.inr (.inl ⟨bs, rfl, hbody left bs (.inr rfl) hnext⟩))
  case h_20 left bs =>
    split at hnext
    · next hle =>
      cases hnext
      exact .inr (.inr (.inl ⟨bs, rfl, .inr ⟨Nat.add_sub_cancel' hle, by simp [Phase.BodyIs]⟩⟩))
    · cases hnext
  case h_24 => cases hnext
  all_goals
    cases hnext
    exact .inr (.inr (.inr ⟨⟨by simp, by simp, by simp⟩, rfl, by simp [Phase.BodyIs]⟩))

end Luwu.HttpParser
