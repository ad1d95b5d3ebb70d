import Luwu.Http.Params

/-!
# The accessors of a request

Parameters and cookies are parsed by the first accessor that asks for them; `m_status` has a bit for
each source.  Every accessor of parameters and cookies parses first, but for `getCookieAs`.
-/

namespace Luwu.Http

open Lib

/-- `checkGetAs`: whether there was a value to convert, and the value it stores.  `cast` is
`boost::lexical_cast`, with no result when that throws. -/
def checkGetAs {T : Type} (cast : Bytes → Option T) (m : MapType) (key : Bytes) (dflt : T) :
    Bool × T :=
  match m.find key with
  | none => (false, dflt)
  | some s =>
    match cast s with
    | some v => (true, v)
    | none => (false, dflt)

def getAs {T : Type} (cast : Bytes → Option T) (m : MapType) (key : Bytes) (dflt : T) : T :=
  match m.find key with
  | none => dflt
  | some s => (cast s).getD dflt

section

variable {ι : Type} {T : ι → Type}

/-- A call of an accessor.  The types that the templates are used at are `T i`. -/
inductive Accessor (T : ι → Type) where
  | getHeader (key dflt : Bytes)
  | getParam (key dflt : Bytes)
  | getCookie (key dflt : Bytes)
  | hasHeader (key : Bytes)
  | hasParam (key : Bytes)
  | hasCookie (key : Bytes)
  | checkGetHeaderAs (i : ι) (key : Bytes) (dflt : T i)
  | checkGetParamAs (i : ι) (key : Bytes) (dflt : T i)
  | checkGetCookieAs (i : ι) (key : Bytes) (dflt : T i)
  | getHeaderAs (i : ι) (key : Bytes) (dflt : T i)
  | getParamAs (i : ι) (key : Bytes) (dflt : T i)
  | getCookieAs (i : ι) (key : Bytes) (dflt : T i)

/-- What a call returns, and what it stores through its pointer or reference. -/
inductive Answer (T : ι → Type) where
  | text (s : Bytes)
  | found (val : Option Bytes)
  | checked (i : ι) (ok : Bool) (val : T i)
  | value (i : ι) (val : T i)

/-- `checkGetAs` as an answer. -/
def Answer.ofCheck (i : ι) (c : Bool × T i) : Answer T := .checked i c.1 c.2

namespace HttpRequest

/-- `initQueryParam ()` and `initBodyParam ()`. -/
def initParams (r : HttpRequest) : HttpRequest := r.initQueryParam.initBodyParam

/-- The result, and the request after the call. -/
def getParam (r : HttpRequest) (key dflt : Bytes) : Bytes × HttpRequest :=
  let r := r.initParams
  ((r.params.find key).getD dflt, r)

/-- The value that is stored, if there is one, and the request after the call. -/
def hasParam (r : HttpRequest) (key : Bytes) : Option Bytes × HttpRequest :=
  let r := r.initParams
  (r.params.find key, r)

/-- A call: its answer, and the request after it. -/
def call (cast : ∀ i, Bytes → Option (T i)) (r : HttpRequest) :
    Accessor T → Answer T × HttpRequest
  | .getHeader key dflt => (.text ((r.headers.find key).getD dflt), r)
  | .getParam key dflt => (r.getParam key dflt).map .text id
  | .getCookie key dflt =>
    let r := r.initCookies
    (.text ((r.cookies.find key).getD dflt), r)
  | .hasHeader key => (.found (r.headers.find key), r)
  | .hasParam key => (r.hasParam key).map .found id
  | .hasCookie key =>
    let r := r.initCookies
    (.found (r.cookies.find key), r)
  | .checkGetHeaderAs i key dflt => (.ofCheck i (checkGetAs (cast i) r.headers key dflt), r)
  | .checkGetParamAs i key dflt =>
    let r := r.initParams
    (.ofCheck i (checkGetAs (cast i) r.params key dflt), r)
  | .checkGetCookieAs i key dflt =>
    let r := r.initCookies
    (.ofCheck i (checkGetAs (cast i) r.cookies key dflt), r)
  | .getHeaderAs i key dflt => (.value i (getAs (cast i) r.headers key dflt), r)
  | .getParamAs i key dflt =>
    let r := r.initParams
    (.value i (getAs (cast i) r.params key dflt), r)
  -- nothing is parsed here
  | .getCookieAs i key dflt => (.value i (getAs (cast i) r.cookies key dflt), r)

/-- The request after some calls. -/
def after (cast : ∀ i, Bytes → Option (T i)) (r : HttpRequest) (calls : List (Accessor T)) :
    HttpRequest :=
  calls.foldl (fun r a => (r.call cast a).2) r

end HttpRequest

namespace Accessor

/-- The accessor parses the query and the body. -/
def parsesParams : Accessor T → Bool
  | .getParam .. | .hasParam .. | .checkGetParamAs .. | .getParamAs .. => true
  | _ => false

/-- The accessor parses the cookies. -/
def parsesCookies : Accessor T → Bool
  | .getCookie .. | .hasCookie .. | .checkGetCookieAs .. => true
  | _ => false

end Accessor

/-! ## Parsing -/

namespace HttpRequest

section

variable (s : UInt8)

theorem bit_set : (s ||| 0x1) &&& 0x1 ≠ 0 ∧ (s ||| 0x2) &&& 0x2 ≠ 0 ∧ (s ||| 0x4) &&& 0x4 ≠ 0 := by
  revert s
  apply forall_byte
  decide +kernel

@[simp] theorem bit_query_body : (s ||| 0x2) &&& 0x1 = s &&& 0x1 := by
  revert s
  apply forall_byte
  decide +kernel

@[simp] theorem bit_query_cookies : (s ||| 0x4) &&& 0x1 = s &&& 0x1 := by
  revert s
  apply forall_byte
  decide +kernel

@[simp] theorem bit_body_cookies : (s ||| 0x4) &&& 0x2 = s &&& 0x2 := by
  revert s
  apply forall_byte
  decide +kernel

@[simp] theorem bit_cookies_query : (s ||| 0x1) &&& 0x4 = s &&& 0x4 := by
  revert s
  apply forall_byte
  decide +kernel

@[simp] theorem bit_cookies_body : (s ||| 0x2) &&& 0x4 = s &&& 0x4 := by
  revert s
  apply forall_byte
  decide +kernel

theorem or_or (a b : UInt8) : s ||| a ||| b = s ||| b ||| a := by
  rw [UInt8.or_assoc, UInt8.or_comm a, ← UInt8.or_assoc]

end

variable (r : HttpRequest)

theorem initQueryParam_bit : r.initQueryParam.status &&& 0x1 ≠ 0 := by
  unfold initQueryParam
  split
  · assumption
  · exact (bit_set _).1

theorem initBodyParam_bit : r.initBodyParam.status &&& 0x2 ≠ 0 := by
  unfold initBodyParam
  split
  · assumption
  · split
    · exact (bit_set _).2.1
    · exact (bit_set _).2.1

theorem initBodyParam_bit_query : r.initBodyParam.status &&& 0x1 = r.status &&& 0x1 := by
  unfold initBodyParam
  split
  · rfl
  · split
    · exact bit_query_body _
    · exact bit_query_body _

theorem initCookies_bit : r.initCookies.status &&& 0x4 ≠ 0 := by
  unfold initCookies
  dsimp only
  split
  · assumption
  · split
    · exact (bit_set _).2.2
    · exact (bit_set _).2.2

/-- What has been parsed is not parsed again. -/
theorem initParams_initParams : r.initParams.initParams = r.initParams := by
  have hquery : r.initParams.status &&& 0x1 ≠ 0 := by
    rw [initParams, initBodyParam_bit_query]
    exact initQueryParam_bit r
  have hbody : r.initParams.status &&& 0x2 ≠ 0 := initBodyParam_bit _
  have hfirst : r.initParams.initQueryParam = r.initParams := if_pos hquery
  show r.initParams.initQueryParam.initBodyParam = _
  rw [hfirst]
  exact if_pos hbody

theorem initCookies_initCookies : r.initCookies.initCookies = r.initCookies :=
  if_pos (initCookies_bit r)

theorem initCookies_initQueryParam :
    r.initQueryParam.initCookies = r.initCookies.initQueryParam := by
  unfold initCookies initQueryParam
  dsimp only
  split_ifs <;> simp_all [or_or _ 0x1 0x4]

theorem initCookies_initBodyParam :
    r.initBodyParam.initCookies = r.initCookies.initBodyParam := by
  unfold initCookies initBodyParam
  dsimp only
  split_ifs <;> simp_all [or_or _ 0x2 0x4, IsForm]

/-- Parameters and cookies are parsed independently. -/
theorem initCookies_initParams : r.initParams.initCookies = r.initCookies.initParams := by
  unfold initParams
  rw [initCookies_initBodyParam, initCookies_initQueryParam]

/-! ## A run of calls -/

variable {r}

@[simp] theorem initParams_headers : r.initParams.headers = r.headers := by
  unfold initParams initBodyParam initQueryParam
  split_ifs <;> rfl

@[simp] theorem initParams_cookies : r.initParams.cookies = r.cookies := by
  unfold initParams initBodyParam initQueryParam
  split_ifs <;> rfl

@[simp] theorem initCookies_headers : r.initCookies.headers = r.headers := by
  unfold initCookies
  dsimp only
  split_ifs <;> rfl

@[simp] theorem initCookies_params : r.initCookies.params = r.params := by
  unfold initCookies
  dsimp only
  split_ifs <;> rfl

/-- What a call leaves: it has parsed the parameters or the cookies, or nothing. -/
theorem call_request (cast : ∀ i, Bytes → Option (T i)) (r : HttpRequest) (a : Accessor T) :
    (r.call cast a).2 =
      if a.parsesParams then r.initParams else if a.parsesCookies then r.initCookies else r := by
  cases a <;> rfl

/-- **What a run leaves depends on whether it has parsed the parameters, and the cookies.** -/
theorem after_eq (cast : ∀ i, Bytes → Option (T i)) (r : HttpRequest) (calls : List (Accessor T)) :
    r.after cast calls =
      if calls.any Accessor.parsesCookies then
        (if calls.any Accessor.parsesParams then r.initParams else r).initCookies
      else if calls.any Accessor.parsesParams then r.initParams else r := by
  induction calls generalizing r with
  | nil => rfl
  | cons a calls ih =>
    show (r.call cast a).2.after cast calls = _
    rw [ih, call_request, List.any_cons, List.any_cons]
    have hexcl : a.parsesParams = true → a.parsesCookies = false := by
      cases a <;> simp [Accessor.parsesParams, Accessor.parsesCookies]
    cases hp : a.parsesParams with
    | true =>
      rw [hexcl hp]
      simp [initParams_initParams]
    | false =>
      cases hc : a.parsesCookies with
      | true =>
        simp only [Bool.false_eq_true, if_false, if_true, Bool.true_or, Bool.false_or]
        split_ifs <;> simp [← initCookies_initParams, initCookies_initCookies]
      | false => simp

/-- The cookies after a run. -/
theorem after_cookies_eq (cast : ∀ i, Bytes → Option (T i)) (r : HttpRequest)
    (calls : List (Accessor T)) :
    (r.after cast calls).cookies =
      if calls.any Accessor.parsesCookies then r.initCookies.cookies else r.cookies := by
  rw [after_eq]
  split_ifs <;> simp [initCookies_initParams]

theorem after_headers (cast : ∀ i, Bytes → Option (T i)) (r : HttpRequest)
    (calls : List (Accessor T)) : (r.after cast calls).headers = r.headers := by
  rw [after_eq]
  split_ifs <;> simp

theorem after_initParams_params (cast : ∀ i, Bytes → Option (T i)) (r : HttpRequest)
    (calls : List (Accessor T)) :
    (r.after cast calls).initParams.params = r.initParams.params := by
  rw [after_eq]
  split_ifs <;> simp [← initCookies_initParams, initParams_initParams]

theorem after_initCookies_cookies (cast : ∀ i, Bytes → Option (T i)) (r : HttpRequest)
    (calls : List (Accessor T)) :
    (r.after cast calls).initCookies.cookies = r.initCookies.cookies := by
  rw [after_eq]
  split_ifs <;> simp [initCookies_initParams, initCookies_initCookies]

/-! ## The cookie of a key -/

/-- The value that the text of the cookies has for a key: that of its first pair with the key. -/
def cookieOf (r : HttpRequest) (key : Bytes) : Option Bytes :=
  ((joined ';'.toUInt8 trimBlanks [] ((getHeader r.headers (ascii "cookie")).splitOn
    ';'.toUInt8)).find? fun e => caseKey e.1 = caseKey key).map Prod.snd

/-- The text of the cookies has a value for the key, which converts and is not the default, and has
not been parsed. -/
def Unparsed {V : Type} (cast : Bytes → Option V) (r : HttpRequest) (key : Bytes) (dflt : V) :
    Prop :=
  r.status &&& 0x4 = 0 ∧ r.cookies.find key = none ∧
    ∃ s v, r.cookieOf key = some s ∧ cast s = some v ∧ v ≠ dflt

theorem initCookies_find (r : HttpRequest) (key : Bytes) (hstatus : r.status &&& 0x4 = 0) :
    r.initCookies.cookies.find key = (r.cookies.find key).or (r.cookieOf key) := by
  have hcookies : r.initCookies.cookies = r.cookies.insertAll
      (parseParam (getHeader r.headers (ascii "cookie")) ';'.toUInt8 trimBlanks 0) := by
    unfold initCookies
    rw [if_neg (not_not.mpr hstatus)]
    dsimp only
    split
    · next hnil =>
      rw [hnil, parseParam_nil]
      rfl
    · rfl
  have hsep : ';'.toUInt8 ≠ '='.toUInt8 := by decide
  rw [hcookies, OrderedMap.find_insertAll, parseParam_eq trimBlanks hsep, cookieOf]
  congr!

/-- Parsing changes the answer of `getAs` just for a value that has not been parsed. -/
theorem getAs_initCookies_iff {V : Type} (cast : Bytes → Option V) (r : HttpRequest) (key : Bytes)
    (dflt : V) :
    getAs cast r.initCookies.cookies key dflt = getAs cast r.cookies key dflt ↔
      ¬ Unparsed cast r key dflt := by
  unfold Unparsed
  by_cases hstatus : r.status &&& 0x4 = 0
  · unfold getAs
    rw [initCookies_find r key hstatus]
    cases hfind : r.cookies.find key with
    | some s => simp
    | none =>
      cases hcookie : r.cookieOf key with
      | none => simp
      | some s => cases hcast : cast s <;> simp [hstatus, hcast]
  · have hsame : r.initCookies = r := if_pos hstatus
    rw [hsame]
    exact iff_of_true rfl fun hno => hstatus hno.1

/-- The call is `getCookieAs` for a value that an earlier call has parsed. -/
def Overtaken (cast : ∀ i, Bytes → Option (T i)) (r : HttpRequest) (calls : List (Accessor T)) :
    Accessor T → Prop
  | .getCookieAs i key dflt =>
    calls.any Accessor.parsesCookies = true ∧ Unparsed (cast i) r key dflt
  | _ => False

/-- After a run an accessor answers as on a fresh request, or `getCookieAs` comes too late. -/
theorem answer_after_iff (cast : ∀ i, Bytes → Option (T i)) (r : HttpRequest)
    (calls : List (Accessor T)) (a : Accessor T) :
    ((r.after cast calls).call cast a).1 = (r.call cast a).1 ↔ ¬ Overtaken cast r calls a := by
  cases a with
  | getHeader key dflt => simp [call, after_headers, Overtaken]
  | hasHeader key => simp [call, after_headers, Overtaken]
  | checkGetHeaderAs i key dflt => simp [call, after_headers, Overtaken]
  | getHeaderAs i key dflt => simp [call, after_headers, Overtaken]
  | getParam key dflt => simp [call, getParam, after_initParams_params, Overtaken]
  | hasParam key => simp [call, hasParam, after_initParams_params, Overtaken]
  | checkGetParamAs i key dflt => simp [call, after_initParams_params, Overtaken]
  | getParamAs i key dflt => simp [call, after_initParams_params, Overtaken]
  | getCookie key dflt => simp [call, after_initCookies_cookies, Overtaken]
  | hasCookie key => simp [call, after_initCookies_cookies, Overtaken]
  | checkGetCookieAs i key dflt => simp [call, after_initCookies_cookies, Overtaken]
  | getCookieAs i key dflt =>
    simp only [call, after_cookies_eq, Overtaken, Answer.value.injEq, heq_eq_eq, true_and]
    split
    · next hparsed => rw [getAs_initCookies_iff, hparsed, eq_self, true_and]
    · next hparsed => exact iff_of_true rfl fun hno => hparsed hno.1

/-! ## The three kinds of accessors -/

/-- At a request, `as` returns what `check` stores, and that is the string of `get`, converted,
where `has` finds one. -/
def Agrees (cast : ∀ i, Bytes → Option (T i)) (s : HttpRequest)
    (as check : ∀ i, Bytes → T i → Accessor T) (get : Bytes → Bytes → Accessor T)
    (has : Bytes → Accessor T) (i : ι) (key : Bytes) (dflt : T i) : Prop :=
  ∃ ok v text found, (s.call cast (as i key dflt)).1 = .value i v ∧
    (s.call cast (check i key dflt)).1 = .checked i ok v ∧
    (s.call cast (get key [])).1 = .text text ∧ (s.call cast (has key)).1 = .found found ∧
    v = if found.isSome then (cast i text).getD dflt else dflt

theorem checkGetAs_snd {V : Type} (cast : Bytes → Option V) (m : MapType) (key : Bytes) (dflt : V) :
    (checkGetAs cast m key dflt).2 = getAs cast m key dflt := by
  unfold checkGetAs getAs
  cases m.find key with
  | none => rfl
  | some s => cases hc : cast s <;> simp [hc]

theorem getAs_eq {V : Type} (cast : Bytes → Option V) (m : MapType) (key : Bytes) (dflt : V) :
    getAs cast m key dflt =
      if (m.find key).isSome then (cast ((m.find key).getD [])).getD dflt else dflt := by
  unfold getAs
  cases m.find key <;> rfl

section

variable (cast : ∀ i, Bytes → Option (T i)) (s : HttpRequest) (i : ι) (key : Bytes) (dflt : T i)

theorem agrees_header :
    Agrees cast s .getHeaderAs .checkGetHeaderAs .getHeader .hasHeader i key dflt :=
  ⟨_, _, _, _, rfl, by rw [← checkGetAs_snd]; rfl, rfl, rfl, getAs_eq _ _ _ _⟩

theorem agrees_param : Agrees cast s .getParamAs .checkGetParamAs .getParam .hasParam i key dflt :=
  ⟨_, _, _, _, rfl, by rw [← checkGetAs_snd]; rfl, rfl, rfl, getAs_eq _ _ _ _⟩

theorem agrees_cookie_iff :
    Agrees cast s .getCookieAs .checkGetCookieAs .getCookie .hasCookie i key dflt ↔
      getAs (cast i) s.initCookies.cookies key dflt = getAs (cast i) s.cookies key dflt := by
  constructor
  · rintro ⟨ok, v, text, found, has, hcheck, -, -, -⟩
    cases has
    rw [← checkGetAs_snd]
    simp only [call, Answer.ofCheck, Answer.checked.injEq, heq_eq_eq, true_and] at hcheck
    exact hcheck.2
  · intro h
    refine ⟨(checkGetAs (cast i) s.initCookies.cookies key dflt).1, _, _, _, rfl, ?_, rfl, rfl, ?_⟩
    · rw [← h, ← checkGetAs_snd]
      rfl
    · rw [← h]
      exact getAs_eq _ _ _ _

end

/-- After a run the accessors of cookies agree, unless the run has parsed none. -/
theorem agrees_cookie_after_iff (cast : ∀ i, Bytes → Option (T i)) (r : HttpRequest)
    (calls : List (Accessor T)) (i : ι) (key : Bytes) (dflt : T i) :
    Agrees cast (r.after cast calls) .getCookieAs .checkGetCookieAs .getCookie .hasCookie i key
        dflt ↔
      calls.any Accessor.parsesCookies = true ∨ ¬ Unparsed (cast i) r key dflt := by
  rw [agrees_cookie_iff, after_initCookies_cookies, after_cookies_eq]
  split
  · next hparsed => exact iff_of_true rfl (.inl hparsed)
  · next hparsed =>
    rw [getAs_initCookies_iff]
    exact ⟨.inr, fun h => h.resolve_left hparsed⟩

/-- **The accessors answer as on a fresh request and agree with each other, but for `getCookieAs`**:
what it returns depends on whether an earlier call has parsed the cookies. -/
theorem accessors_iff (cast : ∀ i, Bytes → Option (T i)) (r : HttpRequest)
    (calls : List (Accessor T)) :
    (∀ a, ((r.after cast calls).call cast a).1 = (r.call cast a).1 ↔
      ¬ Overtaken cast r calls a) ∧
    ∀ i key dflt,
      Agrees cast (r.after cast calls) .getHeaderAs .checkGetHeaderAs .getHeader .hasHeader
        i key dflt ∧
      Agrees cast (r.after cast calls) .getParamAs .checkGetParamAs .getParam .hasParam
        i key dflt ∧
      (Agrees cast (r.after cast calls) .getCookieAs .checkGetCookieAs .getCookie .hasCookie
          i key dflt ↔
        calls.any Accessor.parsesCookies = true ∨ ¬ Unparsed (cast i) r key dflt) :=
  ⟨answer_after_iff cast r calls, fun i key dflt =>
    ⟨agrees_header cast _ i key dflt, agrees_param cast _ i key dflt,
      agrees_cookie_after_iff cast r calls i key dflt⟩⟩

/-- `lexical_cast<std::string>`. -/
def castText (_ : Unit) (s : Bytes) : Option Bytes := some s

/-- The only cookie of a request: `getCookieAs` finds it after a `getCookie`. -/
theorem cookie_overtaken :
    ¬ ∀ (r : HttpRequest) (calls : List (Accessor fun _ : Unit => Bytes))
        (a : Accessor fun _ : Unit => Bytes),
      ((r.after castText calls).call castText a).1 = (r.call castText a).1 := by
  intro h
  have hcall := h { headers := OrderedMap.empty.assign (ascii "Cookie") (ascii "a=1") }
    [.getCookie (ascii "a") []] (.getCookieAs () (ascii "a") [])
  refine (answer_after_iff _ _ _ _).mp hcall ⟨rfl, by decide, by decide, ascii "1", ascii "1", ?_,
    rfl, by decide⟩
  decide +kernel

end HttpRequest

end

end Luwu.Http
