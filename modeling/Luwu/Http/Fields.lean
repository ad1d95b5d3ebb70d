import Luwu.Http.Lines
import Mathlib.Data.List.TakeWhile

/-!
# Header lines

What a line with a header does: the header is set, and the parser is at the start of the next line.
The values of most names are nothing to the parser; those of `Connection` and `Upgrade` may set
flags, and `Content-Length` gives the length of the body.
-/

namespace Luwu.Http

open Lib HttpParser Inter InterM

/-! ## Values that are not looked at -/

/-- The states of a value that can only touch the `Connection` flags. -/
def calm : HeaderState → Bool
  | .general | .connection | .matchingConnectionTokenStart => true
  | .matchingConnectionKeepAlive | .matchingConnectionClose | .matchingConnectionUpgrade => true
  | .matchingConnectionToken => true
  | .connectionKeepAlive | .connectionClose | .connectionUpgrade => true
  | _ => false

/-- What the characters of such a value leave of the parser. -/
structure Keeps (p p' : Parser) : Prop where
  core : core p' = core p
  connectionUpgrade : p.flags.connectionUpgrade = true → p'.flags.connectionUpgrade = true
  calm : calm p'.headerState = true

theorem Keeps.of_headerState (p : Parser) {hs : HeaderState} (i : Nat) (hcalm : Http.calm hs) :
    Keeps p { p with headerState := hs, index := i } := ⟨rfl, id, hcalm⟩

theorem finishValue_keeps {p : Parser} (hc : calm p.headerState) (st : State) (n : Nat) :
    core { p with flags := finishValue p.headerState p.flags, state := st, nread := n } = core p ∧
      (p.flags.connectionUpgrade = true ∨ p.headerState = .connectionUpgrade →
        (finishValue p.headerState p.flags).connectionUpgrade = true) := by
  cases hs : p.headerState <;> simp_all [calm, finishValue, core]

theorem matchWord_calm (word : Bytes) {hit miss : HeaderState} (c : UInt8) {p : Parser}
    (hhit : calm hit) (hmiss : calm miss) (hp : calm p.headerState) :
    calm (matchWord word hit miss c p).headerState := by
  rw [matchWord_eq]
  dsimp only
  split
  · exact hmiss
  · split
    · exact hhit
    · exact hp

theorem connectionToken_calm (c : UInt8) {other : HeaderState} (ho : calm other) :
    calm (connectionToken c other) := by
  unfold connectionToken
  split
  · rfl
  · split
    · rfl
    · split
      · rfl
      · exact ho

theorem valueChar_calm {s : Scan} (ch : UInt8) (hc : calm s.parser.headerState) :
    ∃ s', valueChar ch s = .ret () s' ∧ ValueStep s s' ∧ Keeps s.parser s'.parser := by
  have hset (hs : HeaderState) (i : Nat) (hcalm : calm hs)
      (hrun : valueChar ch s = .ret () { s with
        parser := { s.parser with headerState := hs, index := i } }) :
      ∃ s', valueChar ch s = .ret () s' ∧ ValueStep s s' ∧ Keeps s.parser s'.parser :=
    ⟨_, hrun, .of_inner rfl rfl, .of_headerState s.parser i hcalm⟩
  have hword (word : Bytes) (hit miss : HeaderState) (hhit : calm hit) (hmiss : calm miss)
      (hrun : valueChar ch s = setParser (matchWord word hit miss (lower ch)) s) :
      ∃ s', valueChar ch s = .ret () s' ∧ ValueStep s s' ∧ Keeps s.parser s'.parser := by
    have hcalm := matchWord_calm word (lower ch) hhit hmiss hc
    rw [matchWord_eq] at hcalm
    apply hset _ _ hcalm
    rw [hrun, ← matchWord_eq]
    rfl
  have hstay (hrun : valueChar ch s = .ret () s) :
      ∃ s', valueChar ch s = .ret () s' ∧ ValueStep s s' ∧ Keeps s.parser s'.parser :=
    hset s.parser.headerState s.parser.index hc hrun
  -- a comma ends a token that has been found
  have hflag (hrun : valueChar ch s = .ret () { s with
        parser := { s.parser with
          flags := finishValue s.parser.headerState s.parser.flags
          headerState := .matchingConnectionTokenStart
          index := 0 } }) :
      ∃ s', valueChar ch s = .ret () s' ∧ ValueStep s s' ∧ Keeps s.parser s'.parser := by
    obtain ⟨hcore, hup⟩ := finishValue_keeps hc s.parser.state s.parser.nread
    exact ⟨_, hrun, .of_inner rfl rfl, hcore, fun h => hup (.inl h), rfl⟩
  cases hs : s.parser.headerState <;> rw [hs] at hc <;> first | (cases hc; done) | skip
  case general =>
    have hrun : valueChar ch s =
        .ret () { s with skip := some (s.skip.getD maxHeaderSize - 1) } := by
      simp [valueChar, hs]
    exact ⟨_, hrun, ⟨rfl, rfl, rfl, rfl, .inr rfl, rfl⟩, rfl, id, by rw [hs]; rfl⟩
  case connection =>
    apply hstay
    simp [valueChar, hs]
  case matchingConnectionTokenStart =>
    let other : HeaderState :=
      if token (lower ch) ≠ 0 then .matchingConnectionToken
      else if lower ch = SP ∨ lower ch = HT then .matchingConnectionTokenStart
      else .general
    have hother : calm other := by
      unfold other
      split
      · rfl
      · split <;> rfl
    apply hset (connectionToken (lower ch) other) s.parser.index (connectionToken_calm _ hother)
    simp [valueChar, hs, setHeaderState, setParser, other]
  case matchingConnectionKeepAlive =>
    apply hword (ascii "keep-alive") .connectionKeepAlive .matchingConnectionToken rfl rfl
    simp [valueChar, hs]
  case matchingConnectionClose =>
    apply hword (ascii "close") .connectionClose .matchingConnectionToken rfl rfl
    simp [valueChar, hs]
  case matchingConnectionUpgrade =>
    apply hword (ascii "upgrade") .connectionUpgrade .matchingConnectionToken rfl rfl
    simp [valueChar, hs]
  case matchingConnectionToken =>
    by_cases hcomma : ch = ','.toUInt8
    · apply hset .matchingConnectionTokenStart 0 rfl
      simp [valueChar, hs, setParser, hcomma]
    · apply hstay
      simp [valueChar, hs, hcomma]
  case connectionKeepAlive | connectionClose | connectionUpgrade =>
    by_cases hcomma : ch = ','.toUInt8
    · apply hflag
      simp [valueChar, hs, setParser, hcomma]
    · by_cases hsp : ch = SP
      · apply hstay
        rw [hsp] at hcomma ⊢
        simp [valueChar, hs, hcomma]
      · apply hset .matchingConnectionToken s.parser.index rfl
        simp [valueChar, hs, hcomma, hsp, setHeaderState, setParser]

/-- The names whose values are neither a length nor an encoding to the parser. -/
def plain : HeaderState → Bool
  | .general | .C | .CO | .CON => true
  | .matchingConnection | .matchingProxyConnection | .matchingContentLength => true
  | .matchingTransferEncoding | .matchingUpgrade | .connection | .upgrade => true
  | _ => false

theorem finishValue_plain {hs : HeaderState} (h : plain hs) (f : Flags) : finishValue hs f = f := by
  cases hs <;> first | rfl | cases h

/-- The parser at the start of a value: one for `Upgrade` sets its flag. -/
def seesUpgrade (q : Parser) : Parser :=
  if q.headerState = .upgrade then { q with flags := { q.flags with upgrade := true } } else q

/-- The parser behind the first character of a value. -/
def startValue (q : Parser) (ch : UInt8) : Parser :=
  { seesUpgrade q with
    state := .headerValue
    nread := q.nread + 1
    index := 0
    headerState :=
      if q.headerState = .connection then connectionToken (lower ch) .matchingConnectionToken
      else .general }

theorem headerValueStart_plain {q : Parser} (ch : UInt8) (hplain : plain q.headerState) :
    headerValueStart ch { parser := { q with nread := q.nread + 1 } } =
      .ret () { parser := startValue q ch, mark := some (.headerValue, []) } := by
  cases hs : q.headerState <;> rw [hs] at hplain <;> first
    | (cases hplain; done)
    | simp [headerValueStart, startValue, seesUpgrade, hs, setMark, setParser, updateState,
        setFlags, setHeaderState]

/-- The parser behind the characters `w` of such a value. -/
structure CalmValue (q : Parser) (w : Bytes) (p : Parser) : Prop where
  core : core p = core (seesUpgrade q)
  calm : calm p.headerState = true
  connectionUpgrade : q.flags.connectionUpgrade = true → p.flags.connectionUpgrade = true
  /-- The characters have been read as a part of the token. -/
  token : q.headerState = .connection → ∀ more, w.map lower ++ more = ascii "upgrade" →
    p.index + 1 = w.length ∧
      p.headerState = if more = [] then .connectionUpgrade else .matchingConnectionUpgrade

theorem valueChar_token {s s' : Scan} {ch : UInt8} {w more : Bytes}
    (hchar : valueChar ch s = .ret () s')
    (hstate : s.parser.headerState = .matchingConnectionUpgrade)
    (hindex : s.parser.index + 1 = w.length)
    (hmore : w.map lower ++ lower ch :: more = ascii "upgrade") :
    s'.parser.index = w.length ∧
      s'.parser.headerState =
        if more = [] then .connectionUpgrade else .matchingConnectionUpgrade := by
  have hrun : valueChar ch s = .ret () { s with
      parser := matchWord (ascii "upgrade") .connectionUpgrade .matchingConnectionToken (lower ch)
        s.parser } := by
    simp [valueChar, hstate, setParser]
  have hlen : w.length + (more.length + 1) = 7 := by
    have := congrArg List.length hmore
    rw [List.length_append, List.length_map, List.length_cons] at this
    exact this
  -- the character is the one that the token has at this place
  have hget : (ascii "upgrade").getD w.length 0 = lower ch := by
    rw [← hmore, List.getD_eq_getElem?_getD,
      List.getElem?_append_right (by rw [List.length_map]), List.length_map, Nat.sub_self]
    rfl
  have hend : w.length = (ascii "upgrade").length - 1 ↔ more = [] := by
    rw [← List.length_eq_zero_iff]
    change w.length = 7 - 1 ↔ _
    omega
  rw [hrun, matchWord_eq, hindex, hget] at hchar
  cases hchar
  refine ⟨rfl, ?_⟩
  have hin : ¬ (w.length > (ascii "upgrade").length ∨ lower ch ≠ lower ch) := by
    rw [not_or]
    refine ⟨?_, not_not.mpr rfl⟩
    change ¬ w.length > 7
    omega
  simp only [hin, if_false, hend, hstate]

theorem calmValue_first {q : Parser} (ch : UInt8) : CalmValue q [ch] (startValue q ch) := by
  constructor
  case core => rfl
  case calm =>
    change Http.calm (if _ then _ else _)
    split
    · exact connectionToken_calm _ rfl
    · rfl
  case connectionUpgrade =>
    change _ → (seesUpgrade q).flags.connectionUpgrade = true
    unfold seesUpgrade
    split <;> exact id
  case token =>
    intro hconn more hmore
    refine ⟨rfl, ?_⟩
    have hlower : lower ch = 'u'.toUInt8 := (List.cons.inj hmore).1
    have hne : more ≠ [] := by
      rintro rfl
      have hlen : 1 = 7 := congrArg List.length hmore
      omega
    rw [if_neg hne]
    change (if q.headerState = .connection then _ else _) = _
    rw [if_pos hconn, hlower]
    rfl

theorem reads_calm {q : Parser} (hplain : plain q.headerState) (v : Bytes) :
    Reads q v (CalmValue q) := by
  constructor
  case first =>
    intro ch _
    exact ⟨_, headerValueStart_plain ch hplain, rfl, rfl, calmValue_first ch⟩
  case next =>
    intro w ch more s _ _ hp
    obtain ⟨s', hchar, hstep, hkeeps⟩ := valueChar_calm ch hp.calm
    refine ⟨s', hchar, hstep, hkeeps.core.trans hp.core, hkeeps.calm,
      fun h => hkeeps.connectionUpgrade (hp.connectionUpgrade h), ?_⟩
    intro hconn more hmore
    have hmore' : w.map lower ++ lower ch :: more = ascii "upgrade" := by
      rw [← hmore, List.map_append, List.append_assoc]
      rfl
    obtain ⟨hindex, hstate⟩ := hp.token hconn (lower ch :: more) hmore'
    rw [if_neg (List.cons_ne_nil _ _)] at hstate
    obtain ⟨hindex', hstate'⟩ := valueChar_token hchar hstate hindex hmore'
    refine ⟨?_, hstate'⟩
    rw [List.length_append, List.length_singleton, hindex']
  case nread => exact fun w p n hp => ⟨hp.core, hp.calm, hp.connectionUpgrade, hp.token⟩

/-- An empty value is handed over when the next line shows that it has ended. -/
theorem leads_empty {μ : Type} {c : Callbacks μ} {q : Parser} (o : Owner μ)
    (hst : q.state = .headerValueDiscardWs) (hplain : plain q.headerState)
    (hfit : q.nread + 3 ≤ maxHeaderSize) :
    Leads c { parser := q } o [CR, LF]
      { parser := { q with state := .headerFieldStart, nread := q.nread + 2 } }
      { o with data := c.setHeader o.filed [] o.data } := by
  let p₁ : Parser := { q with state := .headerValueDiscardWsAlmostDone, nread := q.nread + 1 }
  let p₂ : Parser := { q with state := .headerValueDiscardLws, nread := q.nread + 2 }
  have hcr : (turn CR { parser := q }).run c.handle o = (.ok ((), { parser := p₁ }), o) := by
    rw [turn_eq (by rw [hst]; rfl) rfl (Nat.le_trans (by simp) hfit), hst]
    simp [dispatch, headerValueDiscardWs, updateState, setParser, Inter.run, p₁,
      show CR ≠ SP by decide, show CR ≠ HT by decide]
  have hlf : (turn LF { parser := p₁ }).run c.handle o = (.ok ((), { parser := p₂ }), o) := by
    rw [turn_eq rfl rfl (Nat.le_trans (by simp [p₁]) hfit)]
    simp [dispatch, strictCheck, updateState, setParser, Inter.run, p₁, p₂]
  have hgo : Goes c { parser := q } o [CR, LF] { parser := p₂ } o :=
    (goes_of_turn hcr rfl).trans (goes_of_turn hlf rfl)
  intro ch rest hsp hht
  -- the next character, which is no blank, shows that the line is not continued
  rw [hgo]
  apply run_scan_congr
  have hlength : q.headerState ≠ .contentLength := by
    intro h
    rw [h] at hplain
    cases hplain
  rw [turn_eq rfl rfl hfit, turn_eq rfl rfl hfit]
  simp [dispatch, headerValueDiscardLws, hsp, hht, updateState, setParser, setMark, callbackData,
    callback, hlength, finishValue_plain hplain, Inter.run, p₂]

/-! ## Names -/

theorem tolower_token {ch : UInt8} (h : token ch ≠ 0) : tolower ch = token ch ∧ ch ≠ 0 := by
  revert ch
  apply forall_byte
  decide +kernel

theorem caseEq_name {n w : Bytes} (hn : IsName n) (hw : caseKey w = w.map UInt8.toNat) :
    caseEq n w ↔ n.map token = w := by
  have hne : n.takeWhile (· ≠ 0) = n :=
    List.takeWhile_eq_self_iff.mpr fun c hc => decide_eq_true (tolower_token (hn.2 c hc)).2
  have hkey : caseKey n = (n.map token).map UInt8.toNat := by
    rw [caseKey, hne, List.map_map]
    exact List.map_congr_left fun c hc => congrArg UInt8.toNat (tolower_token (hn.2 c hc)).1
  rw [caseEq, hkey, hw]
  constructor
  · exact fun h => List.map_injective_iff.mpr (fun _ _ => UInt8.toNat_inj.mp) h
  · exact congrArg _

theorem nameInv_nameState {n : Bytes} (hn : IsName n) :
    NameInv (n.map token) (nameState (n.map token)) := by
  refine nameState_inv (List.map_eq_nil_iff.not.mpr hn.1) ?_
  intro hmem
  obtain ⟨ch, -, hch⟩ := List.mem_map.mp hmem
  exact token_ne_SP ch hch

theorem plain_nameState {n : Bytes} (hn : IsName n) (hlength : ¬ caseEq n (ascii "content-length"))
    (hencoding : ¬ caseEq n (ascii "transfer-encoding")) :
    plain (nameState (n.map token)).1 := by
  rw [caseEq_name hn (by decide)] at hlength hencoding
  have hinv := nameInv_nameState hn
  unfold NameInv at hinv
  cases hs : (nameState (n.map token)).1 <;> rw [hs] at hinv <;> first
    | rfl
    | exact absurd hinv hlength
    | exact absurd hinv hencoding
    | exact hinv.elim

theorem nameState_upgrade {n : Bytes} (hn : IsName n) :
    (nameState (n.map token)).1 = .upgrade ↔ caseEq n (ascii "upgrade") := by
  rw [caseEq_name hn (by decide)]
  constructor
  · intro hs
    have hinv := nameInv_nameState hn
    unfold NameInv at hinv
    rwa [hs] at hinv
  · intro hname
    rw [hname]
    decide

theorem nameState_connection {n : Bytes} (hn : IsName n) (h : caseEq n (ascii "connection")) :
    (nameState (n.map token)).1 = .connection := by
  rw [(caseEq_name hn (by decide)).mp h]
  decide

theorem lower_of_tolower {ch : UInt8} (h : isAlpha (tolower ch)) : lower ch = tolower ch := by
  revert ch
  apply forall_byte
  decide +kernel

/-- A value that `strcasecmp` finds equal to the token is that token to the parser as well. -/
theorem lower_of_caseEq {v w : Bytes} (hv : Readable v) (hne : w ≠ [])
    (hkey : caseKey w = w.map UInt8.toNat) (hw : ∀ c ∈ w, isAlpha c = true) (h : caseEq v w) :
    v.map lower = w := by
  have hzero : v.takeWhile (· ≠ 0) = v := by
    cases v with
    | nil => rfl
    | cons c v =>
      have hc : c ≠ 0 := by
        rintro rfl
        have hnil : ([] : List Nat) = caseKey w := h
        rw [hkey] at hnil
        exact hne (List.map_eq_nil_iff.mp hnil.symm)
      refine List.takeWhile_eq_self_iff.mpr fun ch hch => decide_eq_true ?_
      rcases List.mem_cons.mp hch with rfl | hch
      · exact hc
      · rintro rfl
        exact absurd (hv 0 hch) (by decide)
  have hmap : v.map tolower = w := by
    apply List.map_injective_iff.mpr fun _ _ => UInt8.toNat_inj.mp
    rw [caseEq, hkey, caseKey, hzero] at h
    rw [← h, List.map_map]
    rfl
  rw [← hmap]
  refine List.map_congr_left fun ch hch => lower_of_tolower (hw _ ?_)
  rw [← hmap]
  exact List.mem_map_of_mem hch

/-! ## Lines -/

/-- The parser behind a line with a header. -/
structure AfterLine (p : Parser) (e : Bytes × Bytes) (p' : Parser) : Prop where
  state : p'.state = .headerFieldStart
  nread : p'.nread = p.nread + (headerLine e).length
  core : core p' =
    { core p with
      upgradeHeader := p.flags.upgrade || decide (caseEq e.1 (ascii "upgrade") ∧ e.2 ≠ []) }
  connectionUpgrade : p.flags.connectionUpgrade = true ∨
    (caseEq e.1 (ascii "connection") ∧ caseEq e.2 (ascii "upgrade")) →
      p'.flags.connectionUpgrade = true

theorem headerLine_eq (n v : Bytes) :
    headerLine (n, v) = n ++ [':'.toUInt8] ++ [SP] ++ (v ++ [CR, LF]) := by
  rw [headerLine, show ascii ": " = [':'.toUInt8] ++ [SP] from rfl, crlf]
  simp only [List.append_assoc]

theorem headerLine_length (n v : Bytes) :
    (headerLine (n, v)).length = n.length + v.length + 4 := by
  rw [headerLine_eq]
  simp only [List.length_append, List.length_cons, List.length_nil]
  omega

section

variable {μ : Type} {c : Callbacks μ} {p : Parser} (o : Owner μ)

/-- The parser in front of the value of a header named `n`. -/
def beforeValue (p : Parser) (n : Bytes) : Parser :=
  { named p n with nread := p.nread + n.length + 2 }

theorem goes_beforeValue (hst : p.state = .headerFieldStart) {n : Bytes} (hn : IsName n)
    (hfit : p.nread + n.length + 2 ≤ maxHeaderSize) :
    Goes c { parser := p } o (n ++ [':'.toUInt8] ++ [SP]) { parser := beforeValue p n }
      { o with filed := n } :=
  (goes_name o hst hn (by omega)).trans (goes_blank _ rfl hfit)

/-- A header that the parser only passes on, or that concerns the connection. -/
structure IsHeader (e : Bytes × Bytes) : Prop where
  name : IsName e.1
  not_length : ¬ caseEq e.1 (ascii "content-length")
  not_encoding : ¬ caseEq e.1 (ascii "transfer-encoding")
  trimmed : Trimmed e.2

instance (e : Bytes × Bytes) : Decidable (IsHeader e) :=
  decidable_of_iff (IsName e.1 ∧ ¬ caseEq e.1 (ascii "content-length") ∧
      ¬ caseEq e.1 (ascii "transfer-encoding") ∧ Trimmed e.2)
    ⟨fun ⟨hname, hlength, hencoding, htrim⟩ => ⟨hname, hlength, hencoding, htrim⟩,
      fun h => ⟨h.name, h.not_length, h.not_encoding, h.trimmed⟩⟩

/-- **A line with a header**: the header is set, and the parser is at the start of the next line. -/
theorem leads_line (hst : p.state = .headerFieldStart) {e : Bytes × Bytes} (he : IsHeader e)
    (hread : Readable e.2)
    (hfit : p.nread + (headerLine e).length + 1 ≤ maxHeaderSize) :
    ∃ p', Leads c { parser := p } o (headerLine e) { parser := p' }
      { o with filed := e.1, data := c.setHeader e.1 e.2 o.data } ∧ AfterLine p e p' := by
  obtain ⟨n, v⟩ := e
  have hn : IsName n := he.name
  have hplain : plain (beforeValue p n).headerState :=
    plain_nameState hn he.not_length he.not_encoding
  have hlen := headerLine_length n v
  have hnread : (beforeValue p n).nread = p.nread + n.length + 2 := rfl
  have hhead := goes_beforeValue (c := c) o hst hn (by omega)
  by_cases hnil : v = []
  · -- no value: the parser finds the end of the line where it looks for one
    subst hnil
    rw [List.length_nil] at hlen
    have hline := hhead.leads (leads_empty _ rfl hplain (by rw [hnread]; omega))
    rw [headerLine_eq]
    refine ⟨_, hline, ?_⟩
    constructor
    case state => rfl
    case nread =>
      rw [hlen]
      change p.nread + n.length + 2 + 2 = _
      omega
    case core => simp [core, beforeValue, named]
    case connectionUpgrade =>
      rintro (h | ⟨-, h⟩)
      · exact h
      · have hkey : ¬ caseEq [] (ascii "upgrade") := by decide
        exact absurd h hkey
  · -- a value: it is read character by character, and its end sets the header
    obtain ⟨p₁, hp₁, hvalue⟩ := leads_value (c := c) { o with filed := n }
      (reads_calm hplain v) rfl hnil he.trimmed hread (by rw [hnread]; omega)
    rw [headerLine_eq]
    refine ⟨_, hhead.leads hvalue, ?_⟩
    constructor
    case state => rfl
    case nread =>
      rw [hlen]
      change p.nread + n.length + 2 + v.length + 2 = _
      omega
    case core =>
      -- an `Upgrade` header is seen by its name alone
      have hstate : (beforeValue p n).headerState = .upgrade ↔ caseEq n (ascii "upgrade") :=
        nameState_upgrade hn
      rw [(finishValue_keeps hp₁.calm .headerFieldStart _).1, hp₁.core, seesUpgrade]
      by_cases hname : caseEq n (ascii "upgrade")
      · rw [if_pos (hstate.mpr hname)]
        simp [core, beforeValue, named, hname, hnil]
      · rw [if_neg (mt hstate.mp hname)]
        simp [core, beforeValue, named, hname]
    case connectionUpgrade =>
      intro h
      apply (finishValue_keeps hp₁.calm .headerFieldStart 0).2
      refine h.imp hp₁.connectionUpgrade ?_
      rintro ⟨hname, hup⟩
      -- a `Connection: upgrade` header is seen by the one token of its value
      have htoken : v.map lower = ascii "upgrade" :=
        lower_of_caseEq hread (by decide) (by decide) (by decide) hup
      have := (hp₁.token (nameState_connection hn hname) [] (by rw [List.append_nil, htoken])).2
      rwa [if_pos rfl] at this

/-- The parser behind the lines of the headers `es`. -/
structure AfterLines (p : Parser) (es : List (Bytes × Bytes)) (p' : Parser) : Prop where
  state : p'.state = .headerFieldStart
  nread : p'.nread = p.nread + (es.flatMap headerLine).length
  core : core p' =
    { core p with
      upgradeHeader := p.flags.upgrade ||
        es.any fun e => decide (caseEq e.1 (ascii "upgrade") ∧ e.2 ≠ []) }
  connectionUpgrade : p.flags.connectionUpgrade = true ∨
    (∃ e ∈ es, caseEq e.1 (ascii "connection") ∧ caseEq e.2 (ascii "upgrade")) →
      p'.flags.connectionUpgrade = true

theorem AfterLines.cons {e : Bytes × Bytes} {es : List (Bytes × Bytes)} {p p₁ p₂ : Parser}
    (h₁ : AfterLine p e p₁) (h₂ : AfterLines p₁ es p₂) : AfterLines p (e :: es) p₂ := by
  constructor
  case state => exact h₂.state
  case nread =>
    rw [h₂.nread, h₁.nread, List.flatMap_cons, List.length_append, Nat.add_assoc]
  case core =>
    have hup : p₁.flags.upgrade =
        (p.flags.upgrade || decide (caseEq e.1 (ascii "upgrade") ∧ e.2 ≠ [])) :=
      congrArg Core.upgradeHeader h₁.core
    rw [h₂.core, h₁.core, hup, List.any_cons, Bool.or_assoc]
  case connectionUpgrade =>
    intro h
    apply h₂.connectionUpgrade
    rcases h with h | ⟨e', he', hup⟩
    · exact .inl (h₁.connectionUpgrade (.inl h))
    · rcases List.mem_cons.mp he' with rfl | he'
      · exact .inl (h₁.connectionUpgrade (.inr hup))
      · exact .inr ⟨e', he', hup⟩

/-- A line does not start with a blank. -/
theorem headerLine_cons {e : Bytes × Bytes} (he : IsHeader e) (d : Bytes) :
    ∃ ch rest, headerLine e ++ d = ch :: rest ∧ ch ≠ SP ∧ ch ≠ HT := by
  obtain ⟨n, v⟩ := e
  cases n with
  | nil => exact absurd rfl he.name.1
  | cons ch n =>
    obtain ⟨-, -, hsp, hht, -⟩ := token_ne (he.name.2 ch List.mem_cons_self)
    exact ⟨ch, _, rfl, hsp, hht⟩

/-- **The lines of a list of headers.** -/
theorem leads_lines {es : List (Bytes × Bytes)} (hes : ∀ e ∈ es, IsHeader e)
    (hread : ∀ e ∈ es, Readable e.2) {p : Parser} (o : Owner μ) (hst : p.state = .headerFieldStart)
    (hfit : p.nread + (es.flatMap headerLine).length + 1 ≤ maxHeaderSize) :
    ∃ p' filed, Leads c { parser := p } o (es.flatMap headerLine) { parser := p' }
      { o with filed, data := es.foldl (fun d e => c.setHeader e.1 e.2 d) o.data } ∧
      AfterLines p es p' := by
  induction es generalizing p o with
  | nil =>
    refine ⟨p, o.filed, fun _ _ _ _ => rfl, hst, rfl, ?_, ?_⟩
    · simp [core]
    · rintro (h | ⟨e, he, -⟩)
      · exact h
      · exact absurd he List.not_mem_nil
  | cons e es ih =>
    rw [List.flatMap_cons, List.length_append] at hfit
    have he := hes e List.mem_cons_self
    obtain ⟨p₁, hline, hp₁⟩ := leads_line (c := c) o hst he
      (hread e List.mem_cons_self) (by omega)
    obtain ⟨p₂, filed, hlines, hp₂⟩ := ih (fun e' he' => hes e' (List.mem_cons_of_mem e he'))
      (fun e' he' => hread e' (List.mem_cons_of_mem e he'))
      { o with filed := e.1, data := c.setHeader e.1 e.2 o.data } hp₁.state
      (by rw [hp₁.nread]; omega)
    refine ⟨p₂, filed, ?_, .cons hp₁ hp₂⟩
    rw [List.flatMap_cons]
    -- a line ends for good when the next one is seen not to continue it
    cases es with
    | nil =>
      intro ch rest hsp hht
      rw [List.flatMap_nil, List.append_nil, hline ch rest hsp hht]
      exact hlines ch rest hsp hht
    | cons e' es =>
      obtain ⟨ch, rest, hcons, hsp, hht⟩ :=
        headerLine_cons (hes e' (by simp)) (es.flatMap headerLine)
      rw [List.flatMap_cons] at hlines ⊢
      rw [hcons] at hlines ⊢
      exact hline.trans hlines hsp hht

end

/-! ## Values that are refused -/

section

variable {μ : Type} (c : Callbacks μ)

/-- Somewhere in the bytes `d` the loop ends with the error `e`. -/
def Fails (s : Scan) (o : Owner μ) (d : Bytes) (e : Errno) : Prop :=
  ∀ rest, ∃ n s' o', (scan (d ++ rest) s).run c.handle o = (.error (.failed n, s'), o') ∧
    s'.parser.errno = e

variable {c} {s s₁ : Scan} {o o₁ : Owner μ} {d d₁ d₂ : Bytes} {ch : UInt8} {e : Errno}

theorem Goes.fails (h₁ : Goes c s o d₁ s₁ o₁) (h₂ : Fails c s₁ o₁ d₂ e) :
    Fails c s o (d₁ ++ d₂) e := by
  intro rest
  rw [List.append_assoc, h₁]
  exact h₂ rest

theorem Leads.fails (h₁ : Leads c s o d₁ s₁ o₁) (h₂ : Fails c s₁ o₁ (ch :: d₂) e)
    (hsp : ch ≠ SP) (hht : ch ≠ HT) : Fails c s o (d₁ ++ ch :: d₂) e := by
  intro rest
  rw [List.append_assoc, List.cons_append, h₁ ch _ hsp hht]
  exact h₂ rest

theorem Fails.append (h : Fails c s o d e) (d' : Bytes) : Fails c s o (d ++ d') e := by
  intro rest
  rw [List.append_assoc]
  exact h (d' ++ rest)

theorem fails_of_turn {x : Exit} (h : (turn ch s).run c.handle o = (.error (x, s₁), o₁))
    (he : s₁.parser.errno = e) : Fails c s o [ch] e := by
  intro rest
  have hrun := run_scan_cons_error h rest
  cases x with
  | here => exact ⟨_, s₁, o₁, hrun, he⟩
  | after => exact ⟨_, s₁, o₁, hrun, he⟩

theorem execute_of_fails {p : Parser} (hp : p.errno = .ok) (hre : p.state.reopens = none)
    (hd : d ≠ []) (h : Fails c { parser := p } o d e) :
    (HttpParser.execute c.handle p d o).2.1.errno = e := by
  have henter : Scan.enter p = { parser := p } := by
    rw [Scan.enter, hre]
    rfl
  obtain ⟨n, s', o', hrun, he⟩ := h []
  rw [List.append_nil] at hrun
  rw [execute_eq hp hd, henter, executeBody_eq, run_bind_of_error hrun]
  exact he

theorem exists_first {α : Type} {P : α → Prop} [DecidablePred P] {l : List α}
    (h : ¬ ∀ a ∈ l, P a) : ∃ l₁ a l₂, l = l₁ ++ a :: l₂ ∧ (∀ b ∈ l₁, P b) ∧ ¬ P a := by
  induction l with
  | nil => exact absurd (fun a ha => absurd ha List.not_mem_nil) h
  | cons a l ih =>
    by_cases ha : P a
    · obtain ⟨l₁, b, l₂, rfl, hl₁, hb⟩ := ih fun hl => h fun b hb => by
        rcases List.mem_cons.mp hb with rfl | hb
        · exact ha
        · exact hl b hb
      refine ⟨a :: l₁, b, l₂, rfl, ?_, hb⟩
      intro x hx
      rcases List.mem_cons.mp hx with rfl | hx
      · exact ha
      · exact hl₁ x hx
    · exact ⟨[], a, l, rfl, fun _ hx => absurd hx List.not_mem_nil, ha⟩

theorem fails_value {q : Parser} (hst : q.state = .headerValueDiscardWs)
    (hlenient : q.lenientHttpHeaders = false) (hplain : plain q.headerState) {v : Bytes}
    (htrim : Trimmed v) (hread : ¬ Readable v) (hfit : q.nread + v.length ≤ maxHeaderSize) :
    Fails c { parser := q } o v .invalidHeaderToken := by
  obtain ⟨hcr, hlf, hfirst, -⟩ := htrim
  cases v with
  | nil => exact absurd (fun _ h => absurd h List.not_mem_nil) hread
  | cons a v =>
    -- up to the first character that is not allowed the value is read
    obtain ⟨w, ch, more, rfl, hw, hch⟩ := exists_first hread
    rw [List.length_cons, List.length_append, List.length_cons] at hfit
    have hmem : ch ∈ a :: (w ++ ch :: more) :=
      List.mem_cons_of_mem a (List.mem_append_right w List.mem_cons_self)
    have hin {b : UInt8} (hb : b ∈ a :: w) : b ∈ a :: (w ++ ch :: more) := by
      rw [← List.cons_append]
      exact List.mem_append_left _ hb
    obtain ⟨s', hgo, hs', hp⟩ := goes_value (c := c) o (reads_calm hplain (a :: w)) hst
      (List.cons_ne_nil _ _) (fun h => hcr (hin h)) (fun h => hlf (hin h)) hfirst hw
      (by rw [List.length_cons]; omega)
    have hne : ch ≠ CR ∧ ch ≠ LF := ⟨fun h => hcr (h ▸ hmem), fun h => hlf (h ▸ hmem)⟩
    have hskip := hs'.skip_ne (by rw [List.length_cons]; omega)
    -- the headers are not read leniently, and nothing changes that on the way
    have hstrict : s'.parser.lenientHttpHeaders = false := by
      have hsees : (seesUpgrade q).lenientHttpHeaders = q.lenientHttpHeaders := by
        unfold seesUpgrade
        split <;> rfl
      exact (congrArg Core.lenient hp.core).trans (hsees.trans hlenient)
    have hturn : ∃ s₁, (turn ch s').run c.handle o = (.error (.here, s₁), o) ∧
        s₁.parser.errno = .invalidHeaderToken := by
      rw [hs'.turn_eq (List.cons_ne_nil _ _) ch (by omega)]
      simp [headerValue, hskip, hne, hstrict, hch, error, setParser, Inter.run]
    obtain ⟨s₁, hrun, he⟩ := hturn
    have hfails := (hgo.fails (fails_of_turn hrun he)).append more
    rwa [List.append_assoc] at hfails

/-- **Lines with a value that is refused.** -/
theorem fails_lines {es : List (Bytes × Bytes)} (hes : ∀ e ∈ es, IsHeader e)
    (hread : ¬ ∀ e ∈ es, Readable e.2) {p : Parser} (hst : p.state = .headerFieldStart)
    (hlenient : p.lenientHttpHeaders = false)
    (hfit : p.nread + (es.flatMap headerLine).length + 1 ≤ maxHeaderSize) :
    Fails c { parser := p } o (es.flatMap headerLine) .invalidHeaderToken := by
  -- up to the first header with such a value the lines are read
  obtain ⟨es₁, e, es₂, rfl, hes₁, he⟩ := exists_first hread
  have hheader := hes e (by simp)
  rw [List.flatMap_append, List.flatMap_cons, List.length_append, List.length_append] at hfit
  have hheaders (e' : Bytes × Bytes) (he' : e' ∈ es₁) : IsHeader e' := hes e' (by simp [he'])
  obtain ⟨p₁, filed, hlines, hp₁⟩ := leads_lines (c := c) hheaders hes₁ o hst (by omega)
  obtain ⟨n, v⟩ := e
  have hname : IsName n := hheader.name
  have htrim : Trimmed v := hheader.trimmed
  have hlen := headerLine_length n v
  have hnread : (beforeValue p₁ n).nread = p₁.nread + n.length + 2 := rfl
  have hhead := goes_beforeValue (c := c) { o with
    filed, data := es₁.foldl (fun d e => c.setHeader e.1 e.2 d) o.data } hp₁.state hname
    (by rw [hp₁.nread]; omega)
  -- there the call ends, and what follows is not looked at
  have hvalue := fails_value (c := c) (q := beforeValue p₁ n)
    (o := { data := es₁.foldl (fun d e => c.setHeader e.1 e.2 d) o.data, filed := n
            finished := o.finished }) rfl
    ((congrArg Core.lenient hp₁.core).trans hlenient)
    (plain_nameState hname hheader.not_length hheader.not_encoding) htrim he
    (by rw [hnread, hp₁.nread]; omega)
  have hline : Fails c { parser := p₁ }
      { o with filed, data := es₁.foldl (fun d e => c.setHeader e.1 e.2 d) o.data }
      (headerLine (n, v)) .invalidHeaderToken := by
    rw [headerLine_eq, ← List.append_assoc]
    exact (hhead.fails hvalue).append _
  obtain ⟨ch, rest, hcons, hsp, hht⟩ := headerLine_cons hheader (es₂.flatMap headerLine)
  rw [List.flatMap_append, List.flatMap_cons, hcons]
  apply hlines.fails _ hsp hht
  rw [← hcons]
  exact hline.append _

end

/-! ## The length of the body -/

/-- The number that digits stand for. -/
def ofDigits (w : Bytes) : Nat := w.foldl (fun n ch => n * 10 + (ch.toNat - 48)) 0

theorem ofDigits_snoc (w : Bytes) (ch : UInt8) :
    ofDigits (w ++ [ch]) = ofDigits w * 10 + (ch.toNat - 48) := by
  rw [ofDigits, List.foldl_append]
  rfl

theorem ofDigits_le_append (w more : Bytes) : ofDigits w ≤ ofDigits (w ++ more) := by
  induction more using List.reverseRecOn with
  | nil => rw [List.append_nil]
  | append_singleton more ch ih =>
    rw [← List.append_assoc, ofDigits_snoc]
    omega

theorem isNum_facts {ch : UInt8} (h : isNum ch) :
    isHeaderChar ch ∧ ch ≠ CR ∧ ch ≠ LF ∧ ch ≠ SP ∧ ch ≠ HT := by
  revert ch
  apply forall_byte
  decide +kernel

theorem isNum_digit {k : Nat} (hk : k < 10) :
    isNum (UInt8.ofNat (48 + k)) ∧ (UInt8.ofNat (48 + k)).toNat - 48 = k := by
  revert k
  decide

theorem decimal_spec (n : Nat) :
    decimal n ≠ [] ∧ (∀ ch ∈ decimal n, isNum ch = true) ∧ ofDigits (decimal n) = n := by
  fun_induction decimal n with
  | case1 n hn =>
    obtain ⟨hnum, hval⟩ := isNum_digit hn
    refine ⟨List.cons_ne_nil _ _, ?_, ?_⟩
    · intro ch hch
      rw [List.mem_singleton.mp hch]
      exact hnum
    · change 0 * 10 + _ = n
      rw [hval]
      omega
  | case2 n hn ih =>
    obtain ⟨-, hdigits, hvalue⟩ := ih
    obtain ⟨hnum, hval⟩ := isNum_digit (Nat.mod_lt n (by decide))
    refine ⟨by simp, ?_, ?_⟩
    · intro ch hch
      rcases List.mem_append.mp hch with hch | hch
      · exact hdigits ch hch
      · rw [List.mem_singleton.mp hch]
        exact hnum
    · rw [ofDigits_snoc, hvalue, hval]
      omega

/-- The parser behind the digits `w` of a length. -/
structure LengthValue (q : Parser) (w : Bytes) (p : Parser) : Prop where
  core : core p = { core q with hasLength := true, contentLength := ofDigits w }
  headerState : p.headerState = .contentLengthNum
  connectionUpgrade : p.flags.connectionUpgrade = q.flags.connectionUpgrade

theorem reads_length {q : Parser} (hq : q.headerState = .contentLength)
    (hnew : q.flags.contentLength = false) {v : Bytes} (hv : ∀ ch ∈ v, isNum ch = true)
    (hfit : ofDigits v ≤ ullongMax - 10) : Reads q v (LengthValue q) := by
  constructor
  case first =>
    intro ch hhead
    have hnum : isNum ch = true := hv ch (List.mem_of_mem_head? hhead)
    refine ⟨{ q with
      nread := q.nread + 1
      state := .headerValue
      index := 0
      flags := { q.flags with contentLength := true }
      contentLength := ch.toNat - 48
      headerState := .contentLengthNum }, ?_, rfl, rfl, ?_, rfl, rfl⟩
    · simp [headerValueStart, hq, hnum, hnew, setMark, setParser, updateState, setFlags]
    · simp [core, ofDigits]
  case next =>
    intro w ch more s _ hw hp
    have hnum : isNum ch = true := by
      apply hv
      rw [← hw]
      exact List.mem_append_right w List.mem_cons_self
    obtain ⟨-, -, -, hsp, -⟩ := isNum_facts hnum
    have hlength : s.parser.contentLength = ofDigits w := congrArg Core.contentLength hp.core
    -- ten times the number so far is at most the whole number
    have hle : ofDigits w * 10 ≤ ofDigits v := by
      have := ofDigits_le_append (w ++ [ch]) more
      rw [List.append_assoc, List.singleton_append, hw, ofDigits_snoc] at this
      omega
    have hsmall : ¬ (ullongMax - 10) / 10 < s.parser.contentLength := by
      rw [hlength]
      omega
    refine ⟨{ s with parser := { s.parser with
      contentLength := s.parser.contentLength * 10 + (ch.toNat - 48) } }, ?_, .of_inner rfl rfl, ?_⟩
    · simp [valueChar, hp.headerState, contentLengthNum, hsp, hnum, hsmall, setParser]
    · refine ⟨?_, hp.headerState, hp.connectionUpgrade⟩
      have hcore := hp.core
      simp only [core, Core.mk.injEq] at hcore ⊢
      refine ⟨hcore.1, ?_⟩
      simp only [hcore, ofDigits_snoc, and_self]
  case nread => exact fun w p n hp => ⟨hp.core, hp.headerState, hp.connectionUpgrade⟩

/-- The parser behind the line with the length `n` of the body. -/
structure AfterLength (p : Parser) (n : Nat) (p' : Parser) : Prop where
  state : p'.state = .headerFieldStart
  nread : p'.nread = p.nread + (headerLine (ascii "content-length", decimal n)).length
  core : core p' = { core p with hasLength := true, contentLength := n }
  connectionUpgrade : p'.flags.connectionUpgrade = p.flags.connectionUpgrade

theorem digits_trimmed {v : Bytes} (hv : ∀ ch ∈ v, isNum ch = true) : Trimmed v := by
  have hne {ch : UInt8} (hch : ch ∈ v) := isNum_facts (hv ch hch)
  refine ⟨?_, ?_, ⟨?_, ?_⟩, ?_, ?_⟩
  · exact fun h => (hne h).2.1 rfl
  · exact fun h => (hne h).2.2.1 rfl
  · exact fun h => (hne (List.mem_of_mem_head? h)).2.2.2.1 rfl
  · exact fun h => (hne (List.mem_of_mem_head? h)).2.2.2.2 rfl
  · exact fun h => (hne (List.mem_of_mem_getLast? h)).2.2.2.1 rfl
  · exact fun h => (hne (List.mem_of_mem_getLast? h)).2.2.2.2 rfl

/-- **The line with the length of the body.** -/
theorem leads_length {μ : Type} {c : Callbacks μ} {p : Parser} (o : Owner μ)
    (hst : p.state = .headerFieldStart) (hnew : p.flags.contentLength = false) {n : Nat}
    (hn : n ≤ ullongMax - 10)
    (hfit : p.nread + (headerLine (ascii "content-length", decimal n)).length + 1 ≤
      maxHeaderSize) :
    ∃ p', Leads c { parser := p } o (headerLine (ascii "content-length", decimal n))
      { parser := p' }
      { o with
        filed := ascii "content-length"
        data := c.setHeader (ascii "content-length") (decimal n) o.data } ∧
      AfterLength p n p' := by
  obtain ⟨hne, hdigits, hvalue⟩ := decimal_spec n
  have hlen := headerLine_length (ascii "content-length") (decimal n)
  have hnread : (beforeValue p (ascii "content-length")).nread =
      p.nread + (ascii "content-length").length + 2 := rfl
  have hhead := goes_beforeValue (c := c) o hst (n := ascii "content-length") (by decide) (by omega)
  have hread : Readable (decimal n) := fun ch hch =>
    (isNum_facts (hdigits ch (List.mem_of_mem_tail hch))).1
  -- the digits are added up while the value is read
  obtain ⟨p₁, hp₁, hline⟩ := leads_value (c := c) { o with filed := ascii "content-length" }
    (reads_length (q := beforeValue p (ascii "content-length")) (v := decimal n)
      (by change (nameState _).1 = _; decide) hnew hdigits (by rw [hvalue]; exact hn))
    rfl hne (digits_trimmed hdigits) hread (by rw [hnread]; omega)
  rw [headerLine_eq]
  refine ⟨_, hhead.leads hline, rfl, ?_, ?_, ?_⟩
  · rw [hlen]
    change p.nread + _ + 2 + _ + 2 = _
    omega
  · rw [hp₁.headerState]
    have hcore := hp₁.core
    rw [hvalue] at hcore
    exact hcore
  · rw [hp₁.headerState]
    exact hp₁.connectionUpgrade

end Luwu.Http
