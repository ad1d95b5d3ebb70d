import Luwu.Http.Framing
import Luwu.Http.Target

/-!
# The first line of a message

The request line, with a method, a target and a version, and the status line, with a version, a
status and a reason.
-/

namespace Luwu.Http

open Lib HttpParser Inter InterM

section

variable {μ : Type} {c : Callbacks μ} {p : Parser} (o : Owner μ)

/-- The parser behind a method and a blank. -/
def afterMethod (m : Method) : Parser :=
  { Parser.init .request with
    state := .reqSpacesBeforeUrl
    method := m
    index := m.string.length + 1
    nread := m.string.length + 1
    contentLength := ullongMax }

/-- Bytes that are reported by nothing but the start of the message. -/
theorem goes_of_follow {s s' : Scan} {d : Bytes}
    (hend : ((scan d s).follow 0).2 = .ok ((), s'))
    (hes : ∀ e ∈ ((scan d s).follow 0).1, e.1 = .messageBegin) : Goes c s o d s' o := by
  have hquiet (es : List Event) (h : ∀ e ∈ es, e.1 = .messageBegin) :
      Answers c.handle 0 es o ∧ handled c.handle es o = o := by
    induction es with
    | nil => exact ⟨trivial, rfl⟩
    | cons e es ih =>
      have hstep : c.handle e o = (0, o) := by
        rw [show e = (.messageBegin, e.2) from Prod.ext (h e List.mem_cons_self) rfl]
        rfl
      obtain ⟨hans, hdata⟩ := ih fun e' he' => h e' (List.mem_cons_of_mem e he')
      rw [Answers, handled_cons, hstep]
      exact ⟨⟨rfl, hans⟩, hdata⟩
  obtain ⟨hans, hdata⟩ := hquiet _ hes
  have hrun : (scan d s).run c.handle o = (.ok ((), s'), o) := by
    rw [run_of_answers hans, hend, hdata]
  intro rest
  rw [scan_append]
  apply run_bind_of_ok (x := ())
  rw [run_mapExit, hrun]
  rfl

theorem goes_method (m : Method) :
    Goes c { parser := .init .request } o (m.string ++ [SP]) { parser := afterMethod m } o := by
  apply goes_of_follow
  · cases m <;> decide +kernel
  · cases m <;> decide +kernel

/-- A byte that only changes the parser. -/
theorem goes_set {st : State} (hst : p.state = st) (hparsing : st.parsingHeader = true) (ch : UInt8)
    {f : Parser → Parser} (hcode : dispatch st ch = setParser f)
    (hfit : p.nread + 1 ≤ maxHeaderSize) :
    Goes c { parser := p } o [ch] { parser := f { p with nread := p.nread + 1 } } o := by
  have hturn : (turn ch { parser := p }).run c.handle o =
      (.ok ((), { parser := f { p with nread := p.nread + 1 } }), o) := by
    subst hst
    rw [turn_eq hparsing rfl hfit]
    change (dispatch p.state ch _).run c.handle o = _
    rw [hcode]
    rfl
  exact goes_of_turn hturn rfl

/-- A byte that is refused. -/
theorem fails_set {st : State} (hst : p.state = st) (hparsing : st.parsingHeader = true)
    {ch : UInt8}
    {e : Errno} (hcode : dispatch st ch = error e) (hfit : p.nread + 1 ≤ maxHeaderSize) :
    Fails c { parser := p } o [ch] e := by
  have hturn : (turn ch { parser := p }).run c.handle o =
      (.error (.here, { parser := { p with nread := p.nread + 1, errno := e } }), o) := by
    subst hst
    rw [turn_eq hparsing rfl hfit]
    change (dispatch p.state ch _).run c.handle o = _
    rw [hcode]
    rfl
  exact fails_of_turn hturn rfl

/-- Characters that lead from one state to the next. -/
def Walk : State → List (UInt8 × State) → Prop
  | _, [] => True
  | st, (ch, st') :: steps =>
    st.parsingHeader = true ∧ dispatch st ch = updateState st' ∧ Walk st' steps

/-- The state at the end of the walk. -/
def walkEnd (st : State) (steps : List (UInt8 × State)) : State :=
  steps.foldl (fun _ step => step.2) st

theorem goes_walk {st : State} (steps : List (UInt8 × State)) (hwalk : Walk st steps)
    (hst : p.state = st) (hfit : p.nread + steps.length ≤ maxHeaderSize) :
    Goes c { parser := p } o (steps.map Prod.fst)
      { parser := { p with state := walkEnd st steps, nread := p.nread + steps.length } } o := by
  induction steps generalizing p st with
  | nil =>
    subst hst
    exact .refl _ _
  | cons step steps ih =>
    obtain ⟨hparsing, hcode, hrest⟩ := hwalk
    rw [List.length_cons] at hfit
    have hfirst := goes_set (c := c) o hst hparsing _ hcode (by omega)
    have htail := ih (p := { p with state := step.2, nread := p.nread + 1 }) hrest rfl
      (by change p.nread + 1 + _ ≤ _; omega)
    have hgo := hfirst.trans htail
    rw [List.map_cons, List.length_cons,
      show p.nread + (steps.length + 1) = p.nread + 1 + steps.length by omega]
    exact hgo

/-- A digit as it is written. -/
def digit (n : Nat) : UInt8 := UInt8.ofNat (48 + n)

theorem decimal_digit {n : Nat} (hn : n < 10) : decimal n = [digit n] := by
  rw [decimal, if_pos hn]
  rfl

theorem digit_spec {n : Nat} (hn : n < 10) :
    isNum (digit n) = true ∧ (digit n).toNat - 48 = n := isNum_digit hn

/-- A version whose numbers are digits. -/
def IsVersion (version : UInt8) : Prop :=
  (version >>> 4).toNat < 10 ∧ (version &&& 0x0f).toNat < 10

instance (version : UInt8) : Decidable (IsVersion version) := inferInstanceAs (Decidable (_ ∧ _))

theorem versionText_eq {version : UInt8} (hv : IsVersion version) :
    versionText version = ascii "HTTP/" ++ [digit (version >>> 4).toNat] ++ ['.'.toUInt8] ++
      [digit (version &&& 0x0f).toNat] := by
  rw [versionText, decimal_digit hv.1, decimal_digit hv.2]
  rfl

/-- The version that the parser makes of the two numbers. -/
theorem versionOf_digits {version : UInt8} {p : Parser}
    (hmajor : p.httpMajor = (version >>> 4).toNat)
    (hminor : p.httpMinor = (version &&& 0x0f).toNat) : versionOf p = version := by
  rw [versionOf, hmajor, hminor]
  clear hmajor hminor
  revert version
  apply forall_byte
  decide +kernel

theorem httpMajor_digit (st : State) {n : Nat} (hn : n < 10) :
    httpMajor st (digit n) = setParser fun p => { p with httpMajor := n, state := st } := by
  obtain ⟨hnum, hval⟩ := digit_spec hn
  simp [httpMajor, hnum, hval]

theorem httpMinor_digit (st : State) {n : Nat} (hn : n < 10) :
    httpMinor st (digit n) = setParser fun p => { p with httpMinor := n, state := st } := by
  obtain ⟨hnum, hval⟩ := digit_spec hn
  simp [httpMinor, hnum, hval]

/-- The numbers of a version, in the states of requests or of responses. -/
theorem goes_numbers {major dot minor : State} (after : State) (hst : p.state = major)
    (hparsing : major.parsingHeader = true ∧ dot.parsingHeader = true ∧ minor.parsingHeader = true)
    (hmajor : ∀ ch, dispatch major ch = httpMajor dot ch)
    (hdot : dispatch dot '.'.toUInt8 = updateState minor)
    (hminor : ∀ ch, dispatch minor ch = httpMinor after ch) {m n : Nat} (hm : m < 10) (hn : n < 10)
    (hfit : p.nread + 3 ≤ maxHeaderSize) :
    Goes c { parser := p } o ([digit m] ++ ['.'.toUInt8] ++ [digit n])
      { parser := { p with
          state := after, nread := p.nread + 3, httpMajor := m, httpMinor := n } } o := by
  let p₁ : Parser := { p with state := dot, nread := p.nread + 1, httpMajor := m }
  let p₂ : Parser := { p with state := minor, nread := p.nread + 2, httpMajor := m }
  have hone : Goes c { parser := p } o [digit m] { parser := p₁ } o :=
    goes_set o hst hparsing.1 _ ((hmajor _).trans (httpMajor_digit dot hm)) (by omega)
  have htwo : Goes c { parser := p₁ } o ['.'.toUInt8] { parser := p₂ } o :=
    goes_set (p := p₁) o rfl hparsing.2.1 _ hdot (Nat.le_trans (by simp [p₁]) hfit)
  have hthree := goes_set (c := c) (p := p₂) o rfl hparsing.2.2 _
    ((hminor _).trans (httpMinor_digit after hn)) hfit
  exact (hone.trans htwo).trans hthree

theorem goes_requestVersion (hst : p.state = .reqHttpStart) {version : UInt8}
    (hv : IsVersion version) (hfit : p.nread + 10 ≤ maxHeaderSize) :
    Goes c { parser := p } o (versionText version ++ crlf)
      { parser := { p with
          state := .headerFieldStart
          nread := p.nread + 10
          httpMajor := (version >>> 4).toNat
          httpMinor := (version &&& 0x0f).toNat } } o := by
  let p₁ : Parser := { p with state := .reqHttpMajor, nread := p.nread + 5 }
  let p₂ : Parser :=
    { p with
      state := .reqHttpEnd
      nread := p.nread + 8
      httpMajor := (version >>> 4).toNat
      httpMinor := (version &&& 0x0f).toNat }
  -- `HTTP/`, the two numbers, and the end of the line
  have hname : Goes c { parser := p } o (ascii "HTTP/") { parser := p₁ } o :=
    goes_walk o [('H'.toUInt8, .reqHttpH), ('T'.toUInt8, .reqHttpHT), ('T'.toUInt8, .reqHttpHTT),
      ('P'.toUInt8, .reqHttpHTTP), ('/'.toUInt8, .reqHttpMajor)]
      ⟨rfl, rfl, rfl, rfl, rfl, rfl, rfl, rfl, rfl, rfl, trivial⟩ hst (Nat.le_trans (by simp) hfit)
  have hnumbers : Goes c { parser := p₁ } o _ { parser := p₂ } o :=
    goes_numbers o .reqHttpEnd rfl ⟨rfl, rfl, rfl⟩ (fun _ => rfl) rfl (fun _ => rfl) hv.1 hv.2
      (Nat.le_trans (by simp [p₁]) hfit)
  have hend : Goes c { parser := p₂ } o crlf _ o :=
    goes_walk o [(CR, .reqLineAlmostDone), (LF, .headerFieldStart)]
      ⟨rfl, rfl, rfl, rfl, trivial⟩ rfl hfit
  have hline := (hname.trans hnumbers).trans hend
  rw [versionText_eq hv]
  simp only [List.append_assoc] at hline ⊢
  exact hline

/-- The parser behind a request line. -/
structure AfterRequestLine (m : Method) (version : UInt8) (line : Bytes) (p : Parser) : Prop where
  type : p.type = .request
  atHeaders : AtHeaders p
  nread : p.nread = line.length
  httpMajor : p.httpMajor = (version >>> 4).toNat
  httpMinor : p.httpMinor = (version &&& 0x0f).toNat
  method : p.method = m
  upgrade : p.flags.upgrade = false
  lenient : p.lenientHttpHeaders = false
  errno : p.errno = .ok

/-- The first line of a request. -/
def requestLine (m : Bytes) (path query fragment : Bytes) (version : UInt8) : Bytes :=
  m ++ ascii " " ++ target path query fragment ++ ascii " " ++ versionText version ++ crlf

/-- **The first line of a request.** -/
theorem goes_requestLine {m : Method} (hm : m ≠ .connect) {path query fragment : Bytes}
    (hpath : IsPath path) (hquery : IsQuery query) (hfragment : IsFragment fragment)
    {version : UInt8} (hv : IsVersion version) {d : μ}
    (hurl : c.url (target path query fragment) o.data = some d)
    (hfit : (requestLine m.string path query fragment version).length ≤ maxHeaderSize) :
    ∃ p, Goes c { parser := .init .request } o (requestLine m.string path query fragment version)
      { parser := p } { o with data := d } ∧
      AfterRequestLine m version (requestLine m.string path query fragment version) p := by
  have hlen : (requestLine m.string path query fragment version).length =
      m.string.length + 1 + (target path query fragment).length + 1 + 10 := by
    rw [requestLine, versionText_eq hv]
    simp only [List.length_append]
    rfl
  have hnread : (afterMethod m).nread = m.string.length + 1 := rfl
  -- the method has taken the bytes before the target
  have htarget := goes_target (c := c) (p := afterMethod m) o rfl hm hpath hquery hfragment
    (by rw [hnread]; omega) hurl
  have hversion := goes_requestVersion (c := c) { o with data := d } (p := { afterMethod m with
    state := .reqHttpStart
    nread := (afterMethod m).nread + (target path query fragment).length + 1 }) rfl hv
    (by rw [hnread]; dsimp only; omega)
  have hline := ((goes_method (c := c) o m).trans htarget).trans hversion
  have hbytes : requestLine m.string path query fragment version =
      m.string ++ [SP] ++ (target path query fragment ++ [SP]) ++
        (versionText version ++ crlf) := by
    simp only [requestLine, List.append_assoc]
    rfl
  rw [← hbytes] at hline
  refine ⟨_, hline, rfl, ⟨rfl, rfl, rfl, rfl, rfl, rfl⟩, ?_, rfl, rfl, rfl, rfl, rfl, rfl⟩
  rw [hlen]
  rfl

/-! ## Status lines -/

theorem goes_responseVersion {version : UInt8} (hv : IsVersion version) :
    Goes c { parser := .init .response } o (versionText version ++ [SP])
      { parser := { Parser.init .response with
          state := .resFirstStatusCode
          nread := 9
          contentLength := ullongMax
          httpMajor := (version >>> 4).toNat
          httpMinor := (version &&& 0x0f).toNat } } o := by
  let p₁ : Parser :=
    { Parser.init .response with state := .resHttpMajor, nread := 5, contentLength := ullongMax }
  let p₂ : Parser :=
    { p₁ with
      state := .resHttpEnd
      nread := 8
      httpMajor := (version >>> 4).toNat
      httpMinor := (version &&& 0x0f).toNat }
  -- `HTTP/`, the two numbers, and a space
  have hname : Goes c { parser := .init .response } o (ascii "HTTP/") { parser := p₁ } o := by
    apply goes_of_follow <;> decide +kernel
  have hnumbers : Goes c { parser := p₁ } o _ { parser := p₂ } o :=
    goes_numbers o .resHttpEnd rfl ⟨rfl, rfl, rfl⟩ (fun _ => rfl) rfl (fun _ => rfl) hv.1 hv.2
      (show 5 + 3 ≤ maxHeaderSize by decide)
  have hend := goes_set (c := c) (p := p₂) o rfl rfl SP
    (f := fun p => { p with state := .resFirstStatusCode }) rfl
      (show 8 + 1 ≤ maxHeaderSize by decide)
  have hline := (hname.trans hnumbers).trans hend
  rw [versionText_eq hv]
  simp only [List.append_assoc] at hline ⊢
  exact hline

theorem decimal_status {n : Nat} (hlow : 100 ≤ n) (hhigh : n < 1000) :
    decimal n = [digit (n / 100)] ++ [digit (n / 10 % 10)] ++ [digit (n % 10)] := by
  rw [decimal, if_neg (by omega), decimal, if_neg (by omega), Nat.div_div_eq_div_mul,
    decimal_digit (by omega)]
  rfl

theorem resFirstStatusCode_digit {n : Nat} (hn : n < 10) :
    resFirstStatusCode (digit n) =
      setParser fun p => { p with statusCode := n, state := .resStatusCode } := by
  obtain ⟨hnum, hval⟩ := digit_spec hn
  simp [resFirstStatusCode, hnum, hval]

theorem goes_statusDigit (hst : p.state = .resStatusCode) {n : Nat} (hn : n < 10)
    (hsmall : p.statusCode * 10 + n ≤ 999) (hfit : p.nread + 1 ≤ maxHeaderSize) :
    Goes c { parser := p } o [digit n]
      { parser := { p with nread := p.nread + 1, statusCode := p.statusCode * 10 + n } } o := by
  obtain ⟨hnum, hval⟩ := digit_spec hn
  have hturn : (turn (digit n) { parser := p }).run c.handle o =
      (.ok ((), { parser := { p with
          nread := p.nread + 1, statusCode := p.statusCode * 10 + n } }), o) := by
    rw [turn_eq (by rw [hst]; rfl) rfl hfit, hst]
    simp [dispatch, resStatusCode, hnum, hval, setParser, Nat.not_lt.mpr hsmall, hst, Inter.run]
  exact goes_of_turn hturn rfl

/-- The digits of the status and the blank behind them. -/
theorem goes_status (hst : p.state = .resFirstStatusCode) {n : Nat} (hlow : 100 ≤ n)
    (hhigh : n < 1000) (hfit : p.nread + 4 ≤ maxHeaderSize) :
    Goes c { parser := p } o (decimal n ++ [SP])
      { parser := { p with state := .resStatusStart, nread := p.nread + 4, statusCode := n } }
      o := by
  let p₁ : Parser :=
    { p with state := .resStatusCode, nread := p.nread + 1, statusCode := n / 100 }
  let p₂ : Parser := { p₁ with nread := p.nread + 2, statusCode := n / 100 * 10 + n / 10 % 10 }
  let p₃ : Parser := { p₁ with nread := p.nread + 3, statusCode := n }
  have hone : Goes c { parser := p } o [digit (n / 100)] { parser := p₁ } o :=
    goes_set o hst rfl _ (resFirstStatusCode_digit (by omega)) (by omega)
  have htwo : Goes c { parser := p₁ } o [digit (n / 10 % 10)] { parser := p₂ } o :=
    goes_statusDigit o rfl (by omega) (by dsimp only [p₁]; omega) (by dsimp only [p₁]; omega)
  have hthree : Goes c { parser := p₂ } o [digit (n % 10)] { parser := p₃ } o := by
    have hgo := goes_statusDigit (c := c) (p := p₂) o rfl (n := n % 10) (by omega)
      (by dsimp only [p₂]; omega) (by dsimp only [p₂]; omega)
    have hn : (n / 100 * 10 + n / 10 % 10) * 10 + n % 10 = n := by omega
    dsimp only [p₂] at hgo
    rw [hn] at hgo
    exact hgo
  have hend := goes_set (c := c) (p := p₃) o rfl rfl SP
    (f := fun p => { p with state := .resStatusStart }) rfl hfit
  rw [decimal_status hlow hhigh]
  exact ((hone.trans htwo).trans hthree).trans hend

/-- The loop in the reason, behind its characters `w`. -/
def reasonScan (p : Parser) (w : Bytes) : Scan where
  parser := { p with state := .resStatus, index := 0, nread := p.nread + w.length }
  mark := some (.status, w)

theorem goes_reason (hst : p.state = .resStatusStart) {reason : Bytes} (hne : reason ≠ [])
    (hcr : CR ∉ reason) (hlf : LF ∉ reason) (hfit : p.nread + reason.length ≤ maxHeaderSize) :
    Goes c { parser := p } o reason (reasonScan p reason) o := by
  -- by induction on the reason from its end
  induction reason using List.reverseRecOn with
  | nil => exact absurd rfl hne
  | append_singleton w ch ih =>
    rw [List.mem_append, not_or, List.mem_singleton] at hcr hlf
    rw [List.length_append, List.length_singleton] at hfit
    have hch : ch ≠ CR ∧ ch ≠ LF := ⟨Ne.symm hcr.2, Ne.symm hlf.2⟩
    by_cases hw : w = []
    · subst hw
      have hturn : (turn ch { parser := p }).run c.handle o =
          (.ok ((), { parser := { p with state := .resStatus, index := 0, nread := p.nread + 1 }
                      mark := some (.status, []) }), o) := by
        rw [turn_eq (by rw [hst]; rfl) rfl (Nat.le_trans (by simp) hfit), hst]
        simp [dispatch, resStatusStart, setMark, setParser, hch, Inter.run]
      exact goes_of_turn hturn rfl
    · have hturn : (turn ch (reasonScan p w)).run c.handle o =
          (.ok ((), { parser := { p with
              state := .resStatus, index := 0, nread := p.nread + w.length + 1 }
                      mark := some (.status, w) }), o) := by
        rw [turn_eq rfl rfl hfit]
        simp [dispatch, resStatus, hch, reasonScan, Inter.run]
      have hadvance : Scan.advance ch { parser := { p with
          state := .resStatus, index := 0, nread := p.nread + w.length + 1 }
                                        mark := some (.status, w) } =
          reasonScan p (w ++ [ch]) := by
        simp [Scan.advance, reasonScan, Nat.add_assoc]
      rw [← hadvance]
      exact (ih hw hcr.1 hlf.1 (by omega)).trans (goes_of_turn hturn rfl)

/-- The end of a status line hands the status over. -/
theorem goes_reason_end (reason : Bytes) (hfit : p.nread + reason.length + 2 ≤ maxHeaderSize) :
    Goes c (reasonScan p reason) o crlf
      { parser := { p with
          state := .headerFieldStart, index := 0, nread := p.nread + reason.length + 2 } }
      { o with data := c.status { p with
          state := .resLineAlmostDone
          index := 0
          nread := p.nread + reason.length + 1 } o.data } := by
  let p₁ : Parser :=
    { p with state := .resLineAlmostDone, index := 0, nread := p.nread + reason.length + 1 }
  have hturn : (turn CR (reasonScan p reason)).run c.handle o =
      (.ok ((), { parser := p₁ }), { o with data := c.status p₁ o.data }) := by
    rw [turn_eq rfl rfl (Nat.le_trans (by simp [reasonScan]) hfit)]
    simp [dispatch, resStatus, updateState, setParser, callbackData, callback, reasonScan,
      Inter.run, p₁]
  have hend := goes_set (c := c) { o with data := c.status p₁ o.data } (p := p₁) rfl rfl LF
    (f := fun p => { p with state := .headerFieldStart }) rfl hfit
  exact (goes_of_turn hturn rfl).trans hend

/-- The first line of a response. -/
def statusLine (version : UInt8) (status : Nat) (reason : Bytes) : Bytes :=
  versionText version ++ ascii " " ++ decimal status ++ ascii " " ++ reason ++ crlf

/-- The parser behind a status line. -/
structure AfterStatusLine (status : Nat) (line : Bytes) (p : Parser) : Prop where
  atHeaders : AtHeaders p
  nread : p.nread = line.length
  type : p.type = .response
  statusCode : p.statusCode = status
  method : p.method ≠ .connect
  upgrade : p.flags.upgrade = false
  lenient : p.lenientHttpHeaders = false
  errno : p.errno = .ok

/-- **The first line of a response.** -/
theorem goes_statusLine {version : UInt8} (hv : IsVersion version) {status : Nat}
    (hlow : 100 ≤ status) (hhigh : status < 1000) {reason : Bytes} (hne : reason ≠ [])
    (hcr : CR ∉ reason) (hlf : LF ∉ reason)
    (hfit : (statusLine version status reason).length ≤ maxHeaderSize) :
    ∃ p p₁, p₁.statusCode = status ∧
      Goes c { parser := .init .response } o (statusLine version status reason) { parser := p }
        { o with data := c.status p₁ o.data } ∧
      AfterStatusLine status (statusLine version status reason) p := by
  have hlen : (statusLine version status reason).length = 9 + 4 + reason.length + 2 := by
    rw [statusLine, versionText_eq hv, decimal_status hlow hhigh]
    simp only [List.length_append]
    change 5 + 1 + 1 + 1 + 1 + (1 + 1 + 1) + 1 + _ + 2 = _
    omega
  rw [hlen] at hfit
  -- behind the version
  let p₀ : Parser :=
    { Parser.init .response with
      state := .resFirstStatusCode
      nread := 9
      contentLength := ullongMax
      httpMajor := (version >>> 4).toNat
      httpMinor := (version &&& 0x0f).toNat }
  -- behind the status
  let p : Parser := { p₀ with state := .resStatusStart, nread := 13, statusCode := status }
  have hstatus : Goes c { parser := p₀ } o (decimal status ++ [SP]) { parser := p } o :=
    goes_status (p := p₀) o rfl hlow hhigh (show 9 + 4 ≤ maxHeaderSize by decide)
  have hreason := goes_reason (c := c) (p := p) o rfl hne hcr hlf
    (by change 13 + reason.length ≤ _; omega)
  have hend := goes_reason_end (c := c) (p := p) o reason hfit
  have hline := ((goes_responseVersion (c := c) o hv).trans hstatus).trans (hreason.trans hend)
  -- the line is its parts one after the other
  have hbytes : statusLine version status reason =
      versionText version ++ [SP] ++ (decimal status ++ [SP]) ++ (reason ++ crlf) := by
    simp only [statusLine, List.append_assoc]
    rfl
  rw [hbytes] at hlen ⊢
  have hmethod : Method.delete ≠ .connect := by decide
  refine ⟨_, _, ?_, hline, ⟨rfl, rfl, rfl, rfl, rfl, rfl⟩, ?_, rfl, rfl, hmethod, rfl, rfl, rfl⟩
  · rfl
  · rw [hlen]

/-- A number of a version that is not a digit has two. -/
theorem decimal_two {n : Nat} (hlow : 10 ≤ n) (hhigh : n < 16) :
    decimal n = [digit 1] ++ [digit (n % 10)] := by
  have hone : n / 10 = 1 := by omega
  rw [decimal, if_neg (by omega), hone, decimal_digit (by decide)]
  rfl

theorem digit_ne {n : Nat} (hn : n < 10) : digit n ≠ '.'.toUInt8 ∧ digit n ≠ SP := by
  revert n
  decide

/-- A version whose numbers are no digits. -/
theorem fails_responseVersion {version : UInt8} (hv : ¬ IsVersion version) :
    Fails c { parser := .init .response } o (versionText version) .invalidVersion := by
  have hbound : (version >>> 4).toNat < 16 ∧ (version &&& 0x0f).toNat < 16 := by
    clear hv
    revert version
    apply forall_byte
    decide +kernel
  let p₁ : Parser :=
    { Parser.init .response with state := .resHttpMajor, nread := 5, contentLength := ullongMax }
  have hname : Goes c { parser := .init .response } o (ascii "HTTP/") { parser := p₁ } o := by
    apply goes_of_follow <;> decide +kernel
  rw [versionText]
  by_cases hmajor : (version >>> 4).toNat < 10
  · -- the minor number has two digits, where a blank has to follow the first
    have hminor : 10 ≤ (version &&& 0x0f).toNat := Nat.not_lt.mp fun h => hv ⟨hmajor, h⟩
    have hnumbers := goes_numbers (c := c) (p := p₁) o .resHttpEnd rfl ⟨rfl, rfl, rfl⟩
      (fun _ => rfl) rfl (fun _ => rfl) hmajor (show 1 < 10 by decide)
      (show 5 + 3 ≤ maxHeaderSize by decide)
    have hcode : dispatch .resHttpEnd (digit ((version &&& 0x0f).toNat % 10)) =
        error .invalidVersion := if_pos (digit_ne (Nat.mod_lt _ (by decide))).2
    have hfails := (hname.trans hnumbers).fails
      (fails_set o rfl rfl hcode (show 8 + 1 ≤ maxHeaderSize by decide))
    rw [decimal_digit hmajor, decimal_two hminor hbound.2]
    simp only [List.append_assoc] at hfails ⊢
    exact hfails
  · -- the major number has two digits, where the dot has to follow the first
    have hone := goes_set (c := c) (p := p₁) o rfl rfl _
      (httpMajor_digit .resHttpDot (show 1 < 10 by decide)) (show 5 + 1 ≤ maxHeaderSize by decide)
    have hcode : dispatch .resHttpDot (digit ((version >>> 4).toNat % 10)) =
        error .invalidVersion := if_pos (digit_ne (Nat.mod_lt _ (by decide))).1
    have hfails := ((hname.trans hone).fails
      (fails_set o rfl rfl hcode (show 6 + 1 ≤ maxHeaderSize by decide))).append
      (ascii "." ++ decimal (version &&& 0x0f).toNat)
    rw [decimal_two (Nat.not_lt.mp hmajor) hbound.1]
    simp only [List.append_assoc] at hfails ⊢
    exact hfails

end

end Luwu.Http
