import Luwu.Http.Head
import Luwu.Http.ResponseTrip

/-!
# The header lines of a message

`HttpRequest::dump` and `HttpResponse::dump` write lines of their own next to those of the header
map: one for the connection, one for the length of a body.  Both skip the entries of the map that
would give a second line for the connection; only the request also skips those for the length.  What
the entries hold is copied as it is, so that a line feed in it makes one more line.
-/

namespace Luwu.Http

open Lib HttpParser

/-! ## Names -/

def lower (s : Bytes) : Bytes := s.map tolower

theorem tolower_eq_zero {c : UInt8} : tolower c = 0 ↔ c = 0 := by
  unfold tolower
  split
  · next h =>
    have hge : 65 ≤ c.toNat := h.1
    have hle : c.toNat ≤ 90 := h.2
    rw [← UInt8.toNat_inj, ← UInt8.toNat_inj, UInt8.toNat_add]
    show (c.toNat + 32) % 256 = 0 ↔ c.toNat = 0
    omega
  · rfl

theorem caseEq_of_lower {a b : Bytes} (h : lower a = lower b) : caseEq a b := by
  have hkey (s : Bytes) : caseKey s = ((lower s).takeWhile (· ≠ 0)).map UInt8.toNat := by
    unfold caseKey lower
    rw [List.takeWhile_map, List.map_map]
    have hzero : (fun c : UInt8 => decide (c ≠ 0)) ∘ tolower = fun c => decide (c ≠ 0) := by
      funext c
      simp [tolower_eq_zero]
    rw [hzero]
    rfl
  rw [caseEq, hkey, hkey, h]

theorem caseEq_iff_of_lower {a b c : Bytes} (h : lower a = lower b) : caseEq a c ↔ caseEq b c := by
  have hkey : caseKey a = caseKey b := caseEq_of_lower h
  rw [caseEq, caseEq, hkey]

/-- The values of the lines that have a name, whatever its case. -/
def valuesOf (name : Bytes) (lines : List (Bytes × Bytes)) : List Bytes :=
  (lines.filter fun e => decide (lower e.1 = lower name)).map Prod.snd

theorem valuesOf_append (name : Bytes) (es es' : List (Bytes × Bytes)) :
    valuesOf name (es ++ es') = valuesOf name es ++ valuesOf name es' := by
  rw [valuesOf, List.filter_append, List.map_append]
  rfl

theorem valuesOf_eq_nil {name : Bytes} {es : List (Bytes × Bytes)} :
    valuesOf name es = [] ↔ ∀ e ∈ es, lower e.1 ≠ lower name := by
  rw [valuesOf, List.map_eq_nil_iff, List.filter_eq_nil_iff]
  simp

/-! ## What is written -/

/-- The text of a message with the first line `start`, headers of its own, the entries `kept` of the
header map and a body. -/
def messageText (start : Bytes) (conn kept : List (Bytes × Bytes)) (body : Bytes) : Bytes :=
  (start :: (conn ++ (kept ++ lengthHeader body)).map lineText).flatMap (· ++ crlf) ++
    (crlf ++ body)

/-- The lines that come from the caller: those into which the first line of the message is cut, but
for the first one, and those of the entries. -/
def callerLines (start : Bytes) (kept : List (Bytes × Bytes)) : List Bytes :=
  (textLines [] start).tail ++ kept.flatMap fun e => textLines [] (lineText e)

def HttpRequest.startLine (r : HttpRequest) : Bytes :=
  httpMethodToString r.method ++ ascii " " ++ target r.path r.query r.fragment ++ ascii " " ++
    versionText r.version

def HttpResponse.startLine (r : HttpResponse) : Bytes :=
  versionText r.version ++ ascii " " ++ decimal r.status ++ ascii " " ++ reasonText r

/-- The entries of the header map that `dump` writes. -/
def HttpRequest.kept (r : HttpRequest) : List (Bytes × Bytes) :=
  r.headers.entries.filter fun e =>
    !(!r.webSocket && decide (caseEq e.1 (ascii "Connection"))) &&
      !(decide (r.body ≠ []) && decide (caseEq e.1 (ascii "content-length")))

/-- The entries of the header map that `dump` writes. -/
def HttpResponse.kept (r : HttpResponse) : List (Bytes × Bytes) :=
  r.headers.entries.filter fun e => !(!r.webSocket && decide (caseEq e.1 (ascii "connection")))

def HttpRequest.callerLines (r : HttpRequest) : List Bytes := Http.callerLines r.startLine r.kept

def HttpResponse.callerLines (r : HttpResponse) : List Bytes := Http.callerLines r.startLine r.kept

theorem bodyText_eq (body : Bytes) :
    bodyText body = (lengthHeader body).flatMap headerLine ++ (crlf ++ body) := by
  unfold bodyText lengthHeader
  by_cases hbody : body = []
  · rw [if_neg (not_not.mpr hbody), if_pos hbody, hbody]
    rfl
  · rw [if_pos hbody, if_neg hbody, List.flatMap_singleton, List.append_assoc]

theorem messageText_eq (start : Bytes) (conn kept : List (Bytes × Bytes)) (body : Bytes) :
    messageText start conn kept body =
      start ++ crlf ++ ((conn ++ kept).flatMap headerLine ++ bodyText body) := by
  have hlines : headerLine = fun e => lineText e ++ crlf := rfl
  rw [messageText, bodyText_eq, List.flatMap_cons, List.flatMap_map, ← hlines]
  simp only [List.flatMap_append, List.append_assoc]

theorem HttpRequest.dump_text (r : HttpRequest) :
    r.dump = messageText r.startLine (connectionHeader (ascii "Connection") r.webSocket r.close)
      r.kept r.body := by
  rw [dump_eq, messageText_eq]
  rfl

theorem HttpResponse.dump_text (r : HttpResponse) :
    r.dump = messageText r.startLine (connectionHeader (ascii "connection") r.webSocket r.close)
      r.kept r.body := by
  rw [dumpResponse_eq, messageText_eq]
  rfl

/-! ## The fields of the text -/

section

variable {start body : Bytes} {conn : List (Bytes × Bytes)}

/-- A text of one line without a colon in its name. -/
def OneLine (e : Bytes × Bytes) : Prop := LF ∉ e.1 ∧ LF ∉ e.2 ∧ ':'.toUInt8 ∉ e.1

instance (e : Bytes × Bytes) : Decidable (OneLine e) := inferInstanceAs (Decidable (_ ∧ _))

theorem OneLine.textLines {e : Bytes × Bytes} (h : OneLine e) :
    textLines [] (lineText e) = [lineText e] := by
  refine textLines_of_not_mem ?_ []
  unfold lineText
  rw [List.mem_append, List.mem_append, not_or, not_or]
  exact ⟨⟨h.1, by decide⟩, h.2.1⟩

theorem flatMap_textLines {es : List (Bytes × Bytes)} (h : ∀ e ∈ es, OneLine e) :
    es.flatMap (fun e => textLines [] (lineText e)) = es.map lineText := by
  rw [List.flatMap_congr fun e he => (h e he).textLines, ← List.map_eq_flatMap]

theorem filterMap_field {es : List (Bytes × Bytes)} (h : ∀ e ∈ es, OneLine e) :
    (es.map lineText).filterMap field = es := by
  induction es with
  | nil => rfl
  | cons e es ih =>
    rw [List.map_cons, List.filterMap_cons_some (field_lineText (h e List.mem_cons_self).2.2),
      ih fun e' he' => h e' (List.mem_cons_of_mem e he')]

theorem lineText_ne_nil (e : Bytes × Bytes) : lineText e ≠ [] :=
  List.append_ne_nil_of_left_ne_nil (List.append_ne_nil_of_right_ne_nil _ (by decide)) _

theorem oneLine_lengthHeader {e : Bytes × Bytes} (he : e ∈ lengthHeader body) : OneLine e := by
  unfold lengthHeader at he
  split at he
  · cases he
  · rw [List.mem_singleton.mp he]
    have hdigits : LF ∉ decimal body.length := fun h =>
      absurd ((decimal_spec body.length).2.1 _ h) (by decide)
    exact ⟨show LF ∉ ascii "content-length" by decide, hdigits,
      show ':'.toUInt8 ∉ ascii "content-length" by decide⟩

theorem field_values {name : Bytes} {ls : List Bytes} :
    valuesOf name (ls.filterMap field) = [] ↔
      ∀ l ∈ ls, ∀ e ∈ field l, lower e.1 ≠ lower name := by
  rw [valuesOf_eq_nil]
  constructor
  · exact fun h l hl e he => h e (List.mem_filterMap.mpr ⟨l, hl, he⟩)
  · intro h e he
    obtain ⟨l, hl, hfield⟩ := List.mem_filterMap.mp he
    exact h l hl e hfield

/-- The lines of a message are those of the caller, with the ones for the connection and the length
among them. -/
theorem messageText_lines (kept : List (Bytes × Bytes)) (body : Bytes)
    (hstart : ∃ l rest, textLines [] start = l :: rest ∧ l ≠ []) (hconn : ∀ e ∈ conn, OneLine e) :
    ∃ first, first ≠ [] ∧
      (headLines [] (messageText start conn kept body)).1 =
        (first :: (textLines [] start).tail ++ (conn.map lineText ++
          (kept.flatMap (fun e => textLines [] (lineText e)) ++
            (lengthHeader body).map lineText))).takeWhile (· ≠ []) ∧
      ((headLines [] (messageText start conn kept body)).2 = body ↔
        ∀ l ∈ callerLines start kept, l ≠ []) := by
  obtain ⟨first, rest, hfirst, hne⟩ := hstart
  have hlines : (start :: (conn ++ (kept ++ lengthHeader body)).map lineText).flatMap
      (textLines []) = first :: (textLines [] start).tail ++ (conn.map lineText ++
        (kept.flatMap (fun e => textLines [] (lineText e)) ++
          (lengthHeader body).map lineText)) := by
    rw [List.flatMap_cons, List.flatMap_map, List.flatMap_append, List.flatMap_append,
      flatMap_textLines hconn, flatMap_textLines fun e => oneLine_lengthHeader, hfirst,
      List.tail_cons]
  obtain ⟨hhead, hbody⟩ :=
    headLines_texts (start :: (conn ++ (kept ++ lengthHeader body)).map lineText) body
  rw [hlines] at hhead hbody
  refine ⟨first, hne, hhead, hbody.trans ?_⟩
  -- the lines that are no lines of the caller are not empty
  have hown (es : List (Bytes × Bytes)) : ∀ l ∈ es.map lineText, l ≠ [] := by
    intro l hl
    obtain ⟨e, -, rfl⟩ := List.mem_map.mp hl
    exact lineText_ne_nil e
  unfold callerLines
  rw [List.forall_mem_append, List.forall_mem_append, List.forall_mem_append,
    List.forall_mem_append, List.forall_mem_cons]
  constructor
  · rintro ⟨⟨-, hrest⟩, -, hkept, -⟩
    exact ⟨hrest, hkept⟩
  · rintro ⟨hrest, hkept⟩
    exact ⟨⟨hne, hrest⟩, hown conn, hkept, hown _⟩

end

/-! ## The lines for the connection and the length -/

/-- The head of a text is followed by the body, one line of it says how long the body is and, unless
the message belongs to a WebSocket, one whether the connection is closed. -/
structure FramedOnce (d body : Bytes) (webSocket close : Bool) : Prop where
  follows : (headLines [] d).2 = body
  length : valuesOf (ascii "content-length") (fields d) = [decimal body.length]
  connection : webSocket = false →
    valuesOf (ascii "connection") (fields d) = [connectionText close]

/-- None of the lines is empty, or named as one that `dump` writes itself. -/
structure Harmless (lines : List Bytes) (webSocket : Bool) : Prop where
  nonempty : ∀ l ∈ lines, l ≠ []
  length : ∀ l ∈ lines, ∀ e ∈ field l, lower e.1 ≠ ascii "content-length"
  connection : webSocket = false →
    ∀ l ∈ lines, ∀ e ∈ field l, lower e.1 ≠ ascii "connection"

theorem valuesOf_lengthHeader {body : Bytes} (hbody : body ≠ []) :
    valuesOf (ascii "content-length") (lengthHeader body) = [decimal body.length] := by
  rw [lengthHeader, if_neg hbody]
  rfl

theorem valuesOf_connection_lengthHeader (body : Bytes) :
    valuesOf (ascii "connection") (lengthHeader body) = [] := by
  unfold lengthHeader
  split <;> rfl

theorem valuesOf_connectionHeader {name : Bytes} (hname : lower name = ascii "connection")
    (webSocket close : Bool) :
    valuesOf (ascii "content-length") (connectionHeader name webSocket close) = [] ∧
      (webSocket = false →
        valuesOf (ascii "connection") (connectionHeader name webSocket close) =
          [connectionText close]) := by
  have hlength : lower name ≠ lower (ascii "content-length") := by
    rw [hname]
    decide
  have hconn : lower name = lower (ascii "connection") := by
    rw [hname]
    decide
  unfold connectionHeader valuesOf
  cases webSocket with
  | true => exact ⟨rfl, fun h => absurd h (by decide)⟩
  | false =>
    constructor
    · simp [hlength]
    · intro _
      simp [hconn]

section

variable {start body name : Bytes} {kept : List (Bytes × Bytes)} {webSocket close : Bool}

theorem oneLine_connectionHeader (hname : OneLine (name, [])) {e : Bytes × Bytes}
    (he : e ∈ connectionHeader name webSocket close) : OneLine e := by
  have hvalue : LF ∉ connectionText close := by cases close <;> decide
  rw [mem_connectionHeader webSocket close he]
  exact ⟨hname.1, hvalue, hname.2.2⟩

/-- The fields of a message whose caller passes no empty line. -/
theorem fields_messageText (body : Bytes) (webSocket close : Bool)
    (hstart : ∃ l rest, textLines [] start = l :: rest ∧ l ≠ []) (hname : OneLine (name, []))
    (hlines : ∀ l ∈ callerLines start kept, l ≠ []) :
    fields (messageText start (connectionHeader name webSocket close) kept body) =
      (textLines [] start).tail.filterMap field ++ (connectionHeader name webSocket close ++
        ((kept.flatMap fun e => textLines [] (lineText e)).filterMap field ++
          lengthHeader body)) := by
  have hconn : ∀ e ∈ connectionHeader name webSocket close, OneLine e :=
    fun e he => oneLine_connectionHeader hname he
  obtain ⟨first, hne, hhead, -⟩ := messageText_lines kept body hstart hconn
  have hall : ∀ l ∈ first :: (textLines [] start).tail ++
      ((connectionHeader name webSocket close).map lineText ++
        (kept.flatMap (fun e => textLines [] (lineText e)) ++ (lengthHeader body).map lineText)),
      decide (l ≠ []) = true := by
    rw [callerLines, List.forall_mem_append] at hlines
    obtain ⟨hrest, hkept⟩ := hlines
    intro l hl
    rw [decide_eq_true_eq]
    simp only [List.mem_append, List.mem_cons, List.mem_map] at hl
    rcases hl with (rfl | hl) | ⟨e, -, rfl⟩ | hl | ⟨e, -, rfl⟩
    · exact hne
    · exact hrest l hl
    · exact lineText_ne_nil e
    · exact hkept l hl
    · exact lineText_ne_nil e
  rw [fields, hhead, List.takeWhile_eq_self_iff.mpr hall, List.cons_append, List.tail_cons,
    List.filterMap_append, List.filterMap_append, List.filterMap_append, filterMap_field hconn,
    filterMap_field fun e he => oneLine_lengthHeader he]

/-- A message is framed once just when the lines of the caller are harmless. -/
theorem framedOnce_messageText (hstart : ∃ l rest, textLines [] start = l :: rest ∧ l ≠ [])
    (hline : OneLine (name, [])) (hname : lower name = ascii "connection") (hbody : body ≠ []) :
    FramedOnce (messageText start (connectionHeader name webSocket close) kept body) body webSocket
        close ↔ Harmless (callerLines start kept) webSocket := by
  have hconn : ∀ e ∈ connectionHeader name webSocket close, OneLine e :=
    fun e he => oneLine_connectionHeader hline he
  obtain ⟨first, -, -, hfollows⟩ := messageText_lines kept body hstart hconn
  obtain ⟨hlength, hconnection⟩ := valuesOf_connectionHeader hname webSocket close
  have hself : lower (ascii "content-length") = ascii "content-length" := by decide
  have hself' : lower (ascii "connection") = ascii "connection" := by decide
  by_cases hlines : ∀ l ∈ callerLines start kept, l ≠ []
  · have hfields := fields_messageText body webSocket close hstart hline hlines
    have hcaller (n : Bytes) (hn : lower n = n) :
        valuesOf n ((textLines [] start).tail.filterMap field) = [] ∧
          valuesOf n ((kept.flatMap fun e => textLines [] (lineText e)).filterMap field) = [] ↔
        ∀ l ∈ callerLines start kept, ∀ e ∈ field l, lower e.1 ≠ n := by
      rw [field_values, field_values, hn, callerLines, List.forall_mem_append]
    -- the values of the caller come on top of those that `dump` writes
    have hlengths : valuesOf (ascii "content-length") (fields (messageText start
          (connectionHeader name webSocket close) kept body)) = [decimal body.length] ↔
        ∀ l ∈ callerLines start kept, ∀ e ∈ field l, lower e.1 ≠ ascii "content-length" := by
      rw [hfields, valuesOf_append, valuesOf_append, valuesOf_append, hlength,
        valuesOf_lengthHeader hbody, List.nil_append, ← List.append_assoc,
        List.append_left_eq_self, List.append_eq_nil_iff]
      exact hcaller _ hself
    have hconnections (hws : webSocket = false) :
        valuesOf (ascii "connection") (fields (messageText start
          (connectionHeader name webSocket close) kept body)) = [connectionText close] ↔
        ∀ l ∈ callerLines start kept, ∀ e ∈ field l, lower e.1 ≠ ascii "connection" := by
      rw [hfields, valuesOf_append, valuesOf_append, valuesOf_append, hconnection hws,
        valuesOf_connection_lengthHeader, List.append_nil, ← hcaller _ hself']
      generalize valuesOf (ascii "connection") ((textLines [] start).tail.filterMap field) = front
      generalize valuesOf (ascii "connection")
        ((kept.flatMap fun e => textLines [] (lineText e)).filterMap field) = back
      constructor
      · intro h
        have hlen := congrArg List.length h
        simp only [List.length_append, List.length_singleton] at hlen
        exact ⟨List.length_eq_zero_iff.mp (by omega), List.length_eq_zero_iff.mp (by omega)⟩
      · rintro ⟨rfl, rfl⟩
        rfl
    constructor
    · exact fun h => ⟨hlines, hlengths.mp h.length, fun hws =>
        (hconnections hws).mp (h.connection hws)⟩
    · exact fun h => ⟨hfollows.mpr hlines, hlengths.mpr h.length, fun hws =>
        (hconnections hws).mpr (h.connection hws)⟩
  · exact iff_of_false (fun h => hlines (hfollows.mp h.follows)) fun h => hlines h.nonempty

end

/-! ## Requests and responses -/

theorem HttpRequest.head_startLine (r : HttpRequest) :
    ∃ l rest, textLines [] r.startLine = l :: rest ∧ l ≠ [] := by
  have hmethod : ∃ c rest, httpMethodToString r.method = c :: rest ∧ c ≠ CR := by
    cases r.method <;> exact ⟨_, _, rfl, by decide⟩
  obtain ⟨c, rest, heq, hc⟩ := hmethod
  rw [startLine, heq]
  exact head_textLines_ne_nil hc _

theorem HttpResponse.head_startLine (r : HttpResponse) :
    ∃ l rest, textLines [] r.startLine = l :: rest ∧ l ≠ [] :=
  head_textLines_ne_nil (show 'H'.toUInt8 ≠ CR by decide) _

theorem HttpRequest.framedOnce_iff {r : HttpRequest} (hbody : r.body ≠ []) :
    FramedOnce r.dump r.body r.webSocket r.close ↔ Harmless r.callerLines r.webSocket := by
  rw [r.dump_text]
  exact framedOnce_messageText r.head_startLine (by decide) (by decide) hbody

theorem HttpResponse.framedOnce_iff {r : HttpResponse} (hbody : r.body ≠ []) :
    FramedOnce r.dump r.body r.webSocket r.close ↔ Harmless r.callerLines r.webSocket := by
  rw [r.dump_text]
  exact framedOnce_messageText r.head_startLine (by decide) (by decide) hbody

/-- The first line and the entries are one line each. -/
def PlainTexts (start : Bytes) (es : List (Bytes × Bytes)) : Prop :=
  LF ∉ start ∧ ∀ e ∈ es, OneLine e

instance (start : Bytes) (es : List (Bytes × Bytes)) : Decidable (PlainTexts start es) :=
  inferInstanceAs (Decidable (_ ∧ _))

theorem PlainTexts.callerLines {start : Bytes} {es kept : List (Bytes × Bytes)}
    (h : PlainTexts start es) (hkept : ∀ e ∈ kept, e ∈ es) :
    callerLines start kept = kept.map lineText := by
  rw [Http.callerLines, textLines_of_not_mem h.1,
    flatMap_textLines fun e he => h.2 e (hkept e he)]
  rfl

theorem PlainTexts.harmless_iff {start : Bytes} {es kept : List (Bytes × Bytes)} {webSocket : Bool}
    (h : PlainTexts start es) (hkept : ∀ e ∈ kept, e ∈ es) :
    Harmless (Http.callerLines start kept) webSocket ↔
      ∀ e ∈ kept, lower e.1 ≠ ascii "content-length" ∧
        (webSocket = false → lower e.1 ≠ ascii "connection") := by
  have hfield : ∀ e ∈ kept, field (lineText e) = some e :=
    fun e he => field_lineText (h.2 e (hkept e he)).2.2
  rw [h.callerLines hkept]
  constructor
  · intro hharmless e he
    have hline := List.mem_map_of_mem (f := lineText) he
    exact ⟨hharmless.length _ hline e (hfield e he),
      fun hws => hharmless.connection hws _ hline e (hfield e he)⟩
  · intro hall
    constructor
    case nonempty =>
      intro l hl
      obtain ⟨e, -, rfl⟩ := List.mem_map.mp hl
      exact lineText_ne_nil e
    case length =>
      intro l hl e' he'
      obtain ⟨e, he, rfl⟩ := List.mem_map.mp hl
      rw [hfield e he, Option.mem_some_iff] at he'
      exact he' ▸ (hall e he).1
    case connection =>
      intro hws l hl e' he'
      obtain ⟨e, he, rfl⟩ := List.mem_map.mp hl
      rw [hfield e he, Option.mem_some_iff] at he'
      exact he' ▸ (hall e he).2 hws

theorem HttpRequest.harmless_of_plain {r : HttpRequest} (hbody : r.body ≠ [])
    (hplain : PlainTexts r.startLine r.headers.entries) :
    Harmless r.callerLines r.webSocket := by
  refine (hplain.harmless_iff fun e he => (List.mem_filter.mp he).1).mpr fun e he => ?_
  have hkeep := (List.mem_filter.mp he).2
  have hlength : lower (ascii "content-length") = ascii "content-length" := by decide
  have hconn : lower (ascii "Connection") = ascii "connection" := by decide
  constructor
  · intro hname
    have hdrop : caseEq e.1 (ascii "content-length") :=
      caseEq_of_lower (hname.trans hlength.symm)
    simp [hdrop, hbody] at hkeep
  · intro hws hname
    have hdrop : caseEq e.1 (ascii "Connection") := caseEq_of_lower (hname.trans hconn.symm)
    simp [hdrop, hws] at hkeep

theorem HttpResponse.harmless_iff_of_plain {r : HttpResponse}
    (hplain : PlainTexts r.startLine r.headers.entries) :
    Harmless r.callerLines r.webSocket ↔
      ∀ e ∈ r.headers.entries, lower e.1 ≠ ascii "content-length" := by
  have hlength : lower (ascii "content-length") = ascii "content-length" := by decide
  have hconn : lower (ascii "connection") = ascii "connection" := by decide
  refine (hplain.harmless_iff fun e he => (List.mem_filter.mp he).1).trans ?_
  constructor
  · intro h e he hname
    -- the entry is no line for the connection, so it is written
    have hkept : ¬ caseEq e.1 (ascii "connection") := by
      rw [caseEq_iff_of_lower (hname.trans hlength.symm)]
      decide
    exact (h e (List.mem_filter.mpr ⟨he, by simp [hkept]⟩)).1 hname
  · intro h e he
    obtain ⟨hmem, hkeep⟩ := List.mem_filter.mp he
    refine ⟨h e hmem, fun hws hname => ?_⟩
    have hdrop : caseEq e.1 (ascii "connection") := caseEq_of_lower (hname.trans hconn.symm)
    simp [hdrop, hws] at hkeep

/-- **A request whose texts are one line each is framed once**, whatever headers have been set. -/
theorem HttpRequest.framedOnce_of_plain {r : HttpRequest} (hbody : r.body ≠ [])
    (hplain : PlainTexts r.startLine r.headers.entries) :
    FramedOnce r.dump r.body r.webSocket r.close :=
  (framedOnce_iff hbody).mpr (harmless_of_plain hbody hplain)

/-- **A response whose texts are one line each is framed once just when no header that has been set
names the length.** -/
theorem HttpResponse.framedOnce_iff_of_plain {r : HttpResponse} (hbody : r.body ≠ [])
    (hplain : PlainTexts r.startLine r.headers.entries) :
    FramedOnce r.dump r.body r.webSocket r.close ↔
      ∀ e ∈ r.headers.entries, lower e.1 ≠ ascii "content-length" :=
  (framedOnce_iff hbody).trans (harmless_iff_of_plain hplain)

/-- **Messages with a body are framed once just when none of the lines that come from their caller
is empty, or named as one that `dump` writes itself.** -/
theorem header_lines_iff (req : HttpRequest) (rsp : HttpResponse) :
    (req.body ≠ [] →
      (FramedOnce req.dump req.body req.webSocket req.close ↔
        Harmless req.callerLines req.webSocket)) ∧
    (rsp.body ≠ [] →
      (FramedOnce rsp.dump rsp.body rsp.webSocket rsp.close ↔
        Harmless rsp.callerLines rsp.webSocket)) :=
  ⟨HttpRequest.framedOnce_iff, HttpResponse.framedOnce_iff⟩

/-- A request that has been given a length, and a response that has been given a type. -/
theorem header_lines_page :
    let req :=
      ({ body := ascii "abc" } : HttpRequest).setHeader (ascii "Content-Length") (ascii "7")
    let rsp := ({ body := ascii "abc" } : HttpResponse).setHeader (ascii "Content-Type")
      (ascii "text/html")
    FramedOnce req.dump req.body req.webSocket req.close ∧
      FramedOnce rsp.dump rsp.body rsp.webSocket rsp.close := by
  intro req rsp
  have hreq : Harmless req.callerLines req.webSocket :=
    HttpRequest.harmless_of_plain (by decide) (by decide +kernel)
  have hrsp : Harmless rsp.callerLines rsp.webSocket :=
    (HttpResponse.harmless_iff_of_plain (by decide +kernel)).mpr (by decide)
  exact ⟨((header_lines_iff req {}).1 (by decide)).mpr hreq,
    ((header_lines_iff {} rsp).2 (by decide)).mpr hrsp⟩

/-- A response that has been given a length has two, here with different values. -/
theorem header_lines_twice :
    ¬ ∀ r : HttpResponse, r.body ≠ [] → FramedOnce r.dump r.body r.webSocket r.close := by
  intro h
  have hframed := h (({ body := ascii "abc" } : HttpResponse).setHeader (ascii "Content-Length")
    (ascii "7")) (by decide)
  have hplain := (HttpResponse.framedOnce_iff_of_plain (by decide) (by decide +kernel)).mp hframed
  exact absurd hplain (by decide)

end Luwu.Http
