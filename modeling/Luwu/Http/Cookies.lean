import Luwu.Http.HeaderLines

/-!
# Cookies of a response

`setCookie` puts the text of a cookie together and appends it to `m_cookies`.  `dump` walks the
header map only.
-/

namespace Luwu.Http

open Lib HttpParser

/-! ## Setting cookies -/

/-- The arguments of `setCookie`. -/
structure Cookie where
  key : Bytes
  val : Bytes
  expired : Int := 0
  path : Bytes := []
  domain : Bytes := []
  secure : Bool := false
deriving DecidableEq

section

-- `time2Str ts` is `Time2Str (ts, "%a, %d %b %Y %H:%M:%S")`
variable (time2Str : Int → Bytes)

def HttpResponse.setCookie (c : Cookie) (r : HttpResponse) : HttpResponse :=
  let ss := c.key ++ ascii "=" ++ c.val
  let ss :=
    if 0 < c.expired then ss ++ ascii ";expires=" ++ time2Str c.expired ++ ascii " GMT" else ss
  let ss := if c.domain ≠ [] then ss ++ ascii ";domain=" ++ c.domain else ss
  let ss := if c.path ≠ [] then ss ++ ascii ";path=" ++ c.path else ss
  let ss := if c.secure then ss ++ ascii ";secure" else ss
  { r with cookies := r.cookies ++ [ss] }

def HttpResponse.setRedirect (uri : Bytes) (r : HttpResponse) : HttpResponse :=
  { r with status := 302 }.setHeader (ascii "Location") uri

/-- A call of a setter. -/
inductive Setter where
  | setStatus (status : Nat)
  | setVersion (version : UInt8)
  | setBody (body : Bytes)
  | appendBody (body : Bytes)
  | setReason (reason : Bytes)
  | setHeaders (header : MapType)
  | setClose (v : Bool)
  | setWebSocket (webSocket : Bool)
  | setHeader (key val : Bytes)
  | delHeader (key : Bytes)
  | setRedirect (uri : Bytes)
  | setCookie (c : Cookie)

def Setter.apply : Setter → HttpResponse → HttpResponse
  | .setStatus status, r => { r with status }
  | .setVersion version, r => { r with version }
  | .setBody body, r => { r with body }
  | .appendBody body, r => r.appendBody body
  | .setReason reason, r => { r with reason }
  | .setHeaders header, r => { r with headers := header }
  | .setClose v, r => { r with close := v }
  | .setWebSocket webSocket, r => { r with webSocket }
  | .setHeader key val, r => r.setHeader key val
  | .delHeader key, r => { r with headers := r.headers.erase key }
  | .setRedirect uri, r => r.setRedirect uri
  | .setCookie c, r => r.setCookie time2Str c

/-- `HttpResponse (version, close)` after some calls. -/
def HttpResponse.after (version : UInt8) (close : Bool) (calls : List Setter) : HttpResponse :=
  calls.foldl (fun r call => call.apply time2Str r) { version, close }

/-! ## What the peer is to see -/

/-- A cookie as it stands behind `Set-Cookie`: its value and the attributes asked for. -/
def Cookie.attributes (c : Cookie) : List Bytes :=
  [c.key ++ ascii "=" ++ c.val] ++
    (if 0 < c.expired then [ascii "expires=" ++ time2Str c.expired ++ ascii " GMT"] else []) ++
    (if c.domain ≠ [] then [ascii "domain=" ++ c.domain] else []) ++
    (if c.path ≠ [] then [ascii "path=" ++ c.path] else []) ++
    (if c.secure then [ascii "secure"] else [])

def Cookie.text (c : Cookie) : Bytes := (ascii ";").intercalate (c.attributes time2Str)

/-- The cookie that a call sets. -/
def Setter.cookie? : Setter → Option Cookie
  | .setCookie c => some c
  | _ => none

/-- The texts of the cookies set, in the order of the calls. -/
def cookieTexts (calls : List Setter) : List Bytes :=
  (calls.filterMap Setter.cookie?).map (Cookie.text time2Str)

/-- Each cookie set has a header line of its own in the text `d`, in order. -/
def SendsCookies (calls : List Setter) (d : Bytes) : Prop :=
  (cookieTexts time2Str calls).Sublist (valuesOf (ascii "Set-Cookie") (fields d))

variable {time2Str}

theorem setCookie_cookies (c : Cookie) (r : HttpResponse) :
    (r.setCookie time2Str c).cookies = r.cookies ++ [c.text time2Str] := by
  have hexpires : ascii ";expires=" = ascii ";" ++ ascii "expires=" := by decide
  have hdomain : ascii ";domain=" = ascii ";" ++ ascii "domain=" := by decide
  have hpath : ascii ";path=" = ascii ";" ++ ascii "path=" := by decide
  have hsecure : ascii ";secure" = ascii ";" ++ ascii "secure" := by decide
  unfold HttpResponse.setCookie Cookie.text Cookie.attributes
  rw [hexpires, hdomain, hpath, hsecure]
  dsimp only
  congr 2
  -- each attribute that is asked for is one more part
  split <;> split <;> split <;> split <;> simp [List.intercalate]

/-! ## Runs of setters -/

theorem Setter.apply_cookies (call : Setter) (r : HttpResponse) :
    (call.apply time2Str r).cookies = r.cookies ++ cookieTexts time2Str [call] := by
  cases call with
  | setCookie c => exact setCookie_cookies c r
  | _ => exact (List.append_nil _).symm

/-- **The cookies are in the response**, in the order of the calls. -/
theorem after_cookies (version : UInt8) (close : Bool) (calls : List Setter) :
    (HttpResponse.after time2Str version close calls).cookies = cookieTexts time2Str calls := by
  have hrun (r : HttpResponse) : (calls.foldl (fun r call => call.apply time2Str r) r).cookies =
      r.cookies ++ cookieTexts time2Str calls := by
    induction calls generalizing r with
    | nil => exact (List.append_nil _).symm
    | cons call calls ih =>
      rw [List.foldl_cons, ih, call.apply_cookies, List.append_assoc]
      congr 1
      rw [cookieTexts, cookieTexts, cookieTexts, ← List.map_append, ← List.filterMap_append]
      rfl
  exact hrun { version, close }

/-! ## What `dump` makes of them -/

theorem valuesOf_entries (name : Bytes) (m : MapType) :
    valuesOf name m.entries = [] ∨
      ∃ e ∈ m.entries, lower e.1 = lower name ∧ valuesOf name m.entries = [e.2] := by
  unfold valuesOf
  have hmem (e : Bytes × Bytes)
      (he : e ∈ m.entries.filter fun e => decide (lower e.1 = lower name)) :
      e ∈ m.entries ∧ lower e.1 = lower name := by
    rw [List.mem_filter, decide_eq_true_eq] at he
    exact he
  have hsorted := m.sorted.filter fun e => decide (lower e.1 = lower name)
  cases hl : m.entries.filter fun e => decide (lower e.1 = lower name) with
  | nil => exact .inl rfl
  | cons e es =>
    rw [hl] at hmem hsorted
    obtain ⟨he, hname⟩ := hmem e List.mem_cons_self
    cases es with
    | nil => exact .inr ⟨e, he, hname, rfl⟩
    | cons e' es =>
      -- two entries of one name would be one key to the map
      have hname' := (hmem e' (List.mem_cons_of_mem e List.mem_cons_self)).2
      have hlt := List.rel_of_pairwise_cons hsorted (List.mem_cons_self)
      have heq : caseKey e.1 = caseKey e'.1 := caseEq_of_lower (hname.trans hname'.symm)
      rw [heq] at hlt
      exact absurd hlt (lt_irrefl _)

/-- The values of a name in the lines up to the first empty one. -/
def headValues (name : Bytes) (ls : List Bytes) : List Bytes :=
  valuesOf name ((ls.takeWhile (· ≠ [])).filterMap field)

section

variable {name : Bytes} {ls ls' : List Bytes}

theorem headValues_of_full (name : Bytes) (h : ∀ l ∈ ls, l ≠ []) :
    headValues name ls = valuesOf name (ls.filterMap field) := by
  rw [headValues, List.takeWhile_eq_self_iff.mpr fun l hl => by simpa using h l hl]

theorem headValues_append_of_full (h : ∀ l ∈ ls, l ≠ []) :
    headValues name (ls ++ ls') = valuesOf name (ls.filterMap field) ++ headValues name ls' := by
  rw [headValues, List.takeWhile_append_of_pos fun l hl => by simpa using h l hl,
    List.filterMap_append, valuesOf_append]
  rfl

theorem headValues_append_of_cut (h : [] ∈ ls) :
    headValues name (ls ++ ls') = headValues name ls := by
  rw [headValues, takeWhile_append_of_cut h]
  rfl

/-- Lines without a value of the name may stand anywhere among the others. -/
theorem headValues_own {own own' : List Bytes} (hne : ∀ l ∈ own, l ≠ [])
    (hne' : ∀ l ∈ own', l ≠ []) (hown : valuesOf name (own.filterMap field) = [])
    (hown' : valuesOf name (own'.filterMap field) = []) :
    headValues name (ls ++ (own ++ (ls' ++ own'))) = headValues name (ls ++ ls') := by
  have hlast : headValues name (ls' ++ own') = headValues name ls' := by
    by_cases h : [] ∈ ls'
    · exact headValues_append_of_cut h
    · have hfull : ∀ l ∈ ls', l ≠ [] := fun l hl hnil => h (hnil ▸ hl)
      rw [headValues_append_of_full hfull, headValues_of_full name hne', hown', List.append_nil,
        headValues_of_full name hfull]
  by_cases h : [] ∈ ls
  · rw [headValues_append_of_cut h, headValues_append_of_cut h]
  · have hfull : ∀ l ∈ ls, l ≠ [] := fun l hl hnil => h (hnil ▸ hl)
    rw [headValues_append_of_full hfull, headValues_append_of_full hne, hown, hlast,
      headValues_append_of_full hfull, List.nil_append]

end

/-- The lines that `dump` writes itself are no cookies. -/
theorem valuesOf_own (r : HttpResponse) :
    valuesOf (ascii "Set-Cookie") (connectionHeader (ascii "connection") r.webSocket r.close) = [] ∧
      valuesOf (ascii "Set-Cookie") (lengthHeader r.body) = [] := by
  constructor
  · rw [valuesOf_eq_nil]
    intro e he
    rw [mem_connectionHeader _ _ he]
    show lower (ascii "connection") ≠ lower (ascii "Set-Cookie")
    decide
  · rw [valuesOf_eq_nil]
    intro e he
    unfold lengthHeader at he
    split at he
    · cases he
    · rw [List.mem_singleton.mp he]
      show lower (ascii "content-length") ≠ lower (ascii "Set-Cookie")
      decide

/-- **The cookies in the text of a response are those in the lines of its caller**, the start line
and the entries of the header map. -/
theorem valuesOf_dump (r : HttpResponse) :
    valuesOf (ascii "Set-Cookie") (fields r.dump) =
      headValues (ascii "Set-Cookie") r.callerLines := by
  have hline : OneLine (ascii "connection", []) := by decide
  have hconn : ∀ e ∈ connectionHeader (ascii "connection") r.webSocket r.close, OneLine e :=
    fun e he => oneLine_connectionHeader hline he
  obtain ⟨first, hne, hhead, -⟩ :=
    messageText_lines r.kept r.body r.head_startLine hconn
  obtain ⟨hown, hown'⟩ := valuesOf_own r
  rw [r.dump_text, fields, hhead, List.cons_append, List.takeWhile_cons_of_pos (by simpa using hne),
    List.tail_cons]
  refine headValues_own ?_ ?_ ?_ ?_
  · intro l hl
    obtain ⟨e, -, rfl⟩ := List.mem_map.mp hl
    exact lineText_ne_nil e
  · intro l hl
    obtain ⟨e, -, rfl⟩ := List.mem_map.mp hl
    exact lineText_ne_nil e
  · rw [filterMap_field hconn, hown]
  · rw [filterMap_field fun e he => oneLine_lengthHeader he, hown']

theorem valuesOf_kept (r : HttpResponse) :
    valuesOf (ascii "Set-Cookie") r.kept = valuesOf (ascii "Set-Cookie") r.headers.entries := by
  -- none of them is a line for the connection
  unfold valuesOf HttpResponse.kept
  rw [List.filter_filter]
  congr 1
  apply List.filter_congr
  intro e _
  by_cases hname : lower e.1 = lower (ascii "Set-Cookie")
  · have hother : ¬ caseEq e.1 (ascii "connection") := by
      rw [caseEq_iff_of_lower hname]
      decide
    simp [hname, hother]
  · simp [hname]

/-- Of a response whose texts are one line each these are the entries. -/
theorem headValues_plain {r : HttpResponse} (h : PlainTexts r.startLine r.headers.entries) :
    headValues (ascii "Set-Cookie") r.callerLines =
      valuesOf (ascii "Set-Cookie") r.headers.entries := by
  have hkept : ∀ e ∈ r.kept, e ∈ r.headers.entries := fun e he => (List.mem_filter.mp he).1
  have hfull : ∀ l ∈ r.kept.map lineText, l ≠ [] := by
    intro l hl
    obtain ⟨e, -, rfl⟩ := List.mem_map.mp hl
    exact lineText_ne_nil e
  rw [HttpResponse.callerLines, h.callerLines hkept, headValues_of_full _ hfull,
    filterMap_field fun e he => h.2 e (hkept e he), valuesOf_kept]

theorem sublist_entries_iff (texts : List Bytes) (m : MapType) :
    texts.Sublist (valuesOf (ascii "Set-Cookie") m.entries) ↔
      texts = [] ∨ ∃ e ∈ m.entries, lower e.1 = ascii "set-cookie" ∧ texts = [e.2] := by
  have hname : lower (ascii "Set-Cookie") = ascii "set-cookie" := by decide
  constructor
  · intro h
    -- the map has one line for all the cookies at most
    rcases valuesOf_entries (ascii "Set-Cookie") m with hnil | ⟨e, he, hlower, hvalue⟩
    · rw [hnil] at h
      exact .inl (List.sublist_nil.mp h)
    · rw [hvalue] at h
      rcases List.sublist_singleton.mp h with hnil | hone
      · exact .inl hnil
      · exact .inr ⟨e, he, hlower.trans hname, hone⟩
  · rintro (hnil | ⟨e, he, hlower, hone⟩)
    · rw [hnil]
      exact List.nil_sublist _
    · rw [hone, List.singleton_sublist]
      apply List.mem_map.mpr
      refine ⟨e, List.mem_filter.mpr ⟨he, ?_⟩, rfl⟩
      rw [hname]
      exact decide_eq_true hlower

/-- **The cookies are sent just when the caller has passed them as header lines, too.**  For texts
of one line each, these are no cookies, or one that has also been set as a header. -/
theorem cookies_sent_iff (time2Str : Int → Bytes) (version : UInt8) (close : Bool)
    (calls : List Setter) :
    (SendsCookies time2Str calls (HttpResponse.after time2Str version close calls).dump ↔
      (cookieTexts time2Str calls).Sublist (headValues (ascii "Set-Cookie")
        (HttpResponse.after time2Str version close calls).callerLines)) ∧
    (PlainTexts (HttpResponse.after time2Str version close calls).startLine
        (HttpResponse.after time2Str version close calls).headers.entries →
      (SendsCookies time2Str calls (HttpResponse.after time2Str version close calls).dump ↔
        cookieTexts time2Str calls = [] ∨
          ∃ e ∈ (HttpResponse.after time2Str version close calls).headers.entries,
            lower e.1 = ascii "set-cookie" ∧ cookieTexts time2Str calls = [e.2])) := by
  have hsends : SendsCookies time2Str calls (HttpResponse.after time2Str version close calls).dump ↔
      (cookieTexts time2Str calls).Sublist (headValues (ascii "Set-Cookie")
        (HttpResponse.after time2Str version close calls).callerLines) := by
    rw [SendsCookies, valuesOf_dump]
  refine ⟨hsends, fun hplain => ?_⟩
  rw [hsends, headValues_plain hplain]
  exact sublist_entries_iff _ _

def kookie : Cookie where
  key := ascii "kookie1"
  val := ascii "value1"
  path := ascii "/"

/-- A cookie that has been set as a header, too. -/
theorem cookie_sent_by_header :
    let calls :=
      [.setCookie kookie, .setHeader (ascii "Set-Cookie") (ascii "kookie1=value1;path=/")]
    SendsCookies (fun _ => []) calls (HttpResponse.after (fun _ => []) 0x11 true calls).dump :=
  ((cookies_sent_iff _ 0x11 true _).2 (by decide +kernel)).mpr (by decide)

/-- No line of the response has it. -/
theorem cookie_not_sent :
    ¬ SendsCookies (fun _ => []) [.setCookie kookie]
      (HttpResponse.after (fun _ => []) 0x11 true [.setCookie kookie]).dump := by
  have hplain : PlainTexts
      (HttpResponse.after (fun _ => []) 0x11 true [.setCookie kookie]).startLine
      (HttpResponse.after (fun _ => []) 0x11 true [.setCookie kookie]).headers.entries := by
    decide +kernel
  rw [SendsCookies, valuesOf_dump, headValues_plain hplain]
  decide

end

end Luwu.Http
