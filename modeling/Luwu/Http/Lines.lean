import Luwu.Http.Parser
import Luwu.HttpParser.Names

/-!
# How the parsers read lines

What the loop of `http_parser_execute` does with the parts of a message, together with the
callbacks that put the message together.  `Goes` says where the loop gets to behind some bytes;
`Leads` says it for a header line, which the parser has done with only when it sees that the next
line does not start with a blank.  `core` is what of the parser the header lines do not touch.
-/

namespace Luwu.Http

open Lib HttpParser Inter InterM

/-- What of the parser outlasts a header line. -/
structure Core where
  type : ParserType
  lenient : Bool
  httpMajor : Nat
  httpMinor : Nat
  statusCode : Nat
  method : Method
  errno : Errno
  upgrade : Bool
  chunked : Bool
  trailing : Bool
  upgradeHeader : Bool
  skipBody : Bool
  hasLength : Bool
  contentLength : Nat
deriving DecidableEq

def core (p : Parser) : Core where
  type := p.type
  lenient := p.lenientHttpHeaders
  httpMajor := p.httpMajor
  httpMinor := p.httpMinor
  statusCode := p.statusCode
  method := p.method
  errno := p.errno
  upgrade := p.upgrade
  chunked := p.flags.chunked
  trailing := p.flags.trailing
  upgradeHeader := p.flags.upgrade
  skipBody := p.flags.skipBody
  hasLength := p.flags.contentLength
  contentLength := p.contentLength

section

variable {μ : Type} (c : Callbacks μ)

/-- Behind the bytes `d` the loop is at `s'`, and the owner's data are `o'`. -/
def Goes (s : Scan) (o : Owner μ) (d : Bytes) (s' : Scan) (o' : Owner μ) : Prop :=
  ∀ rest, (scan (d ++ rest) s).run c.handle o = (scan rest s').run c.handle o'

/-- The same for bytes that are not followed by a blank. -/
def Leads (s : Scan) (o : Owner μ) (d : Bytes) (s' : Scan) (o' : Owner μ) : Prop :=
  ∀ ch rest, ch ≠ SP → ch ≠ HT →
    (scan (d ++ ch :: rest) s).run c.handle o = (scan (ch :: rest) s').run c.handle o'

variable {c} {s s₁ s₂ : Scan} {o o₁ o₂ : Owner μ} {d d₁ d₂ : Bytes} {ch : UInt8}

theorem Goes.refl (s : Scan) (o : Owner μ) : Goes c s o [] s o := fun _ => rfl

theorem Goes.trans (h₁ : Goes c s o d₁ s₁ o₁) (h₂ : Goes c s₁ o₁ d₂ s₂ o₂) :
    Goes c s o (d₁ ++ d₂) s₂ o₂ := by
  intro rest
  rw [List.append_assoc, h₁, h₂]

theorem Goes.leads (h₁ : Goes c s o d₁ s₁ o₁) (h₂ : Leads c s₁ o₁ d₂ s₂ o₂) :
    Leads c s o (d₁ ++ d₂) s₂ o₂ := by
  intro ch rest hsp hht
  rw [List.append_assoc, h₁, h₂ ch rest hsp hht]

theorem Leads.trans (h₁ : Leads c s o d₁ s₁ o₁) (h₂ : Leads c s₁ o₁ (ch :: d₂) s₂ o₂)
    (hsp : ch ≠ SP) (hht : ch ≠ HT) : Leads c s o (d₁ ++ ch :: d₂) s₂ o₂ := by
  intro ch' rest hsp' hht'
  rw [List.append_assoc, List.cons_append, h₁ ch _ hsp hht, ← List.cons_append,
    h₂ ch' rest hsp' hht']

theorem goes_of_turn (h : (turn ch s).run c.handle o = (.ok ((), s₁), o₁))
    (hr : s₁.returned = false) : Goes c s o [ch] (s₁.advance ch) o₁ := by
  intro rest
  rw [List.singleton_append, run_scan_cons h, goOn_of_not_returned (s := s₁.advance ch) hr]

/-- What one byte makes of two loops alike, the rest of the bytes does as well. -/
theorem run_scan_congr {s' : Scan} {o' : Owner μ}
    (h : (turn ch s).run c.handle o = (turn ch s').run c.handle o') (rest : Bytes) :
    (scan (ch :: rest) s).run c.handle o = (scan (ch :: rest) s').run c.handle o' := by
  generalize hturn : (turn ch s').run c.handle o' = out at h
  obtain ⟨⟨e, s₁⟩ | ⟨⟨⟩, s₁⟩, o₁⟩ := out
  · rw [run_scan_cons_error h, run_scan_cons_error hturn]
  · rw [run_scan_cons h, run_scan_cons hturn]

end

/-! ## Counting -/

theorem countByte_eq {p : Parser} {n : Nat} (h : p.nread + n ≤ maxHeaderSize) (hn : 0 < n) :
    countByte p = { p with nread := p.nread + 1 } := by
  have : maxHeaderSize < 2 ^ 32 := by decide
  rw [countByte, Nat.mod_eq_of_lt (by omega)]

/-- A byte of the headers that is counted by the outer loop. -/
theorem turn_eq {s : Scan} {ch : UInt8} (hst : s.parser.state.parsingHeader = true)
    (hp : s.passed = none) (hfit : s.parser.nread + 1 ≤ maxHeaderSize) :
    turn ch s = dispatch s.parser.state ch
      { s with parser := { s.parser with nread := s.parser.nread + 1 } } := by
  have hcount := countByte_eq hfit Nat.one_pos
  rw [turn_counted hst hp (by rw [hcount]; exact hfit), hcount]

theorem countHeaderSize_eq {s : Scan} {n : Nat} (hfit : s.parser.nread + n ≤ maxHeaderSize) :
    countHeaderSize n s =
      .ret () { s with parser := { s.parser with nread := s.parser.nread + n } } := by
  have hmax : maxHeaderSize < 2 ^ 32 := by decide
  have hmod : (s.parser.nread + n) % 2 ^ 32 = s.parser.nread + n := Nat.mod_eq_of_lt (by omega)
  simp only [countHeaderSize, setParser, InterM.bind_apply, modify_apply, bind_ret, gets_apply,
    hmod]
  rw [if_neg (by omega)]
  rfl

/-- A byte that an inner loop has reached. -/
theorem turn_passed {s : Scan} {ch : UInt8} {n : Nat} (hp : s.passed = some n) :
    turn ch s = dispatch s.parser.state ch s := by
  simp [turn, hp]

/-! ## Field names -/

theorem token_ne {ch : UInt8} (h : token ch ≠ 0) :
    ch ≠ CR ∧ ch ≠ LF ∧ ch ≠ SP ∧ ch ≠ HT ∧ ch ≠ ':'.toUInt8 := by
  refine ⟨?_, ?_, ?_, ?_, ?_⟩ <;>
  · rintro rfl
    exact h (by decide)

theorem token_ne_SP (ch : UInt8) : token ch ≠ SP := by
  revert ch
  apply forall_byte
  decide +kernel

/-- The loop in a name, behind its characters `w`. -/
def nameScan (p : Parser) (w : Bytes) : Scan where
  parser :=
    { p with
      state := .headerField
      nread := p.nread + min w.length 2
      headerState := (nameState (w.map token)).1
      index := (nameState (w.map token)).2 }
  mark := some (.headerField, w)
  passed := if w.length = 1 then none else some (w.length - 2)

section

variable {μ : Type} {c : Callbacks μ} {p : Parser} (o : Owner μ)

theorem goes_name_first (hst : p.state = .headerFieldStart) {ch : UInt8} (hch : token ch ≠ 0)
    (hfit : p.nread + 1 ≤ maxHeaderSize) :
    Goes c { parser := p } o [ch] (nameScan p [ch]) o := by
  obtain ⟨hcr, hlf, -, -, -⟩ := token_ne hch
  have hturn : (turn ch { parser := p }).run c.handle o =
      (.ok ((), { parser := { p with
          state := .headerField, nread := p.nread + 1
          headerState := (firstChar (token ch)).1, index := 0 }
                  mark := some (.headerField, []) }), o) := by
    rw [turn_eq (by rw [hst]; rfl) rfl hfit, hst]
    simp [dispatch, headerFieldStart, hcr, hlf, hch, setMark, setParser, firstChar, Inter.run]
  exact goes_of_turn hturn rfl

theorem nameScan_snoc_state {w : Bytes} (hw : w ≠ []) {ch : UInt8} (hch : token ch ≠ 0) :
    fieldChar ch (token ch) { (nameScan p w).parser with nread := p.nread + 2 } =
      (nameScan p (w ++ [ch])).parser := by
  have hpos := List.length_pos_iff.mpr hw
  have hmin : min (w ++ [ch]).length 2 = 2 := by
    rw [List.length_append, List.length_singleton]
    omega
  have hname : nameState ((w ++ [ch]).map token) =
      nameChar (nameState (w.map token)) (token ch) := by
    rw [List.map_append, List.map_singleton, nameState_snoc (by simpa using hw)]
  rw [fieldChar_eq (token_ne hch).2.2.1 (token_ne_SP ch)]
  unfold nameScan
  dsimp only
  rw [hmin, hname]

theorem goes_name_next {w : Bytes} (hw : w ≠ []) {ch : UInt8} (hch : token ch ≠ 0)
    (hfit : p.nread + 2 ≤ maxHeaderSize) :
    Goes c (nameScan p w) o [ch] (nameScan p (w ++ [ch])) o := by
  have hpos := List.length_pos_iff.mpr hw
  have hturn : (turn ch (nameScan p w)).run c.handle o =
      (.ok ((), { parser := (nameScan p (w ++ [ch])).parser
                  mark := some (.headerField, w)
                  passed := some (w.length - 1) }), o) := by
    rw [← nameScan_snoc_state hw hch]
    by_cases hone : w.length = 1
    · -- the first character in the inner loop
      rw [turn_eq rfl (by simp [nameScan, hone])
        (by change p.nread + min w.length 2 + 1 ≤ _; omega)]
      simp [dispatch, headerField, hch, setParser, Inter.run, nameScan, hone, Scan.offset]
    · have hpassed : (nameScan p w).passed = some (w.length - 2) := by simp [nameScan, hone]
      have hnread : p.nread + min w.length 2 = p.nread + 2 := by omega
      rw [turn_passed hpassed]
      simp [dispatch, headerField, hch, setParser, Inter.run, nameScan, hone, Scan.offset, hnread]
      omega
  have hadvance : Scan.advance ch { parser := (nameScan p (w ++ [ch])).parser
                                    mark := some (.headerField, w)
                                    passed := some (w.length - 1) } = nameScan p (w ++ [ch]) := by
    have hlen : ¬ (w ++ [ch]).length = 1 := by
      rw [List.length_append, List.length_singleton]
      omega
    simp [Scan.advance, nameScan]
    omega
  rw [← hadvance]
  exact goes_of_turn hturn rfl

/-- The parser behind the colon that ends the name `n`. -/
def named (p : Parser) (n : Bytes) : Parser :=
  { p with
    state := .headerValueDiscardWs
    nread := p.nread + n.length + 1
    headerState := (nameState (n.map token)).1
    index := (nameState (n.map token)).2 }

theorem goes_name_end {n : Bytes} (hn : n ≠ []) (hfit : p.nread + n.length + 1 ≤ maxHeaderSize) :
    Goes c (nameScan p n) o [':'.toUInt8] { parser := named p n } { o with filed := n } := by
  have hpos := List.length_pos_iff.mpr hn
  have htoken : token ':'.toUInt8 = 0 := by decide
  have hturn : (turn ':'.toUInt8 (nameScan p n)).run c.handle o =
      (.ok ((), { parser := named p n }), { o with filed := n }) := by
    by_cases hone : n.length = 1
    · rw [turn_eq rfl (by simp [nameScan, hone])
        (by change p.nread + min n.length 2 + 1 ≤ _; omega)]
      simp [dispatch, headerField, htoken, nameScan, hone, Scan.offset, updateState, setParser,
        callbackData, callback, named]
      rw [countHeaderSize_eq (by dsimp only; omega)]
      simp [Inter.run]
    · have hpassed : (nameScan p n).passed = some (n.length - 2) := by simp [nameScan, hone]
      rw [turn_passed hpassed]
      simp [dispatch, headerField, htoken, nameScan, hone, Scan.offset, updateState, setParser,
        callbackData, callback, named]
      rw [countHeaderSize_eq (by dsimp only; omega)]
      simp [Inter.run]
      omega
  exact goes_of_turn hturn rfl

/-- **A field name and its colon.** -/
theorem goes_name (hst : p.state = .headerFieldStart) {n : Bytes} (hn : IsName n)
    (hfit : p.nread + n.length + 1 ≤ maxHeaderSize) :
    Goes c { parser := p } o (n ++ [':'.toUInt8]) { parser := named p n }
      { o with filed := n } := by
  obtain ⟨hne, htoken⟩ := hn
  have hchars : Goes c { parser := p } o n (nameScan p n) o := by
    -- by induction on the name from its end
    induction n using List.reverseRecOn with
    | nil => exact absurd rfl hne
    | append_singleton w ch ih =>
      have hch := htoken ch (List.mem_append_right w List.mem_cons_self)
      rw [List.length_append, List.length_singleton] at hfit
      by_cases hw : w = []
      · rw [hw]
        exact goes_name_first o hst hch (by omega)
      · have hpos := List.length_pos_iff.mpr hw
        exact (ih (by omega) hw fun c hc => htoken c (List.mem_append_left [ch] hc)).trans
          (goes_name_next o hw hch (by omega))
  exact hchars.trans (goes_name_end o hne hfit)

theorem goes_blank (hst : p.state = .headerValueDiscardWs) (hfit : p.nread + 1 ≤ maxHeaderSize) :
    Goes c { parser := p } o [SP] { parser := { p with nread := p.nread + 1 } } o := by
  have hturn : (turn SP { parser := p }).run c.handle o =
      (.ok ((), { parser := { p with nread := p.nread + 1 } }), o) := by
    rw [turn_eq (by rw [hst]; rfl) rfl hfit, hst]
    simp [dispatch, headerValueDiscardWs, Inter.run, hst]
  exact goes_of_turn hturn rfl

end

/-! ## Field values -/

/-- The loop in a value, behind its characters `w`; `q` is the parser in front of it. -/
structure Inside (q : Parser) (w : Bytes) (s : Scan) : Prop where
  state : s.parser.state = .headerValue
  nread : s.parser.nread = q.nread + min w.length 2
  mark : s.mark = some (.headerValue, w)
  passed : s.passed = if w.length = 1 then none else some (w.length - 2)
  skip : ∀ k, s.skip = some k → maxHeaderSize ≤ k + w.length
  returned : s.returned = false

section

variable {q : Parser} {w : Bytes} {s : Scan}

/-- A byte of the inner loop, which the outer loop counts if it is the first one there. -/
theorem Inside.turn_eq (hs : Inside q w s) (hw : w ≠ []) (ch : UInt8)
    (hfit : q.nread + 2 ≤ maxHeaderSize) :
    turn ch s = headerValue ch { s with parser := { s.parser with nread := q.nread + 2 } } := by
  have hpos := List.length_pos_iff.mpr hw
  by_cases hone : w.length = 1
  · have hnread : s.parser.nread = q.nread + 1 := by
      rw [hs.nread]
      omega
    rw [Http.turn_eq (by rw [hs.state]; rfl) (by rw [hs.passed, if_pos hone])
      (by rw [hnread]; omega), hs.state, hnread]
    rfl
  · have hnread : s.parser.nread = q.nread + 2 := by
      rw [hs.nread]
      omega
    rw [turn_passed (by rw [hs.passed, if_neg hone]), hs.state, ← hnread]
    rfl

theorem Inside.offset (hs : Inside q w s) (hw : w ≠ []) : s.offset = w.length - 1 := by
  have hpos := List.length_pos_iff.mpr hw
  unfold Scan.offset
  rw [hs.passed]
  by_cases hone : w.length = 1
  · rw [if_pos hone, hone]
  · rw [if_neg hone]
    dsimp only
    omega

theorem Inside.skip_ne (hs : Inside q w s) (hfit : w.length < maxHeaderSize) :
    s.skip ≠ some 0 := by
  intro h
  have := hs.skip 0 h
  omega

end

/-- What the code for one character of a value leaves alone. -/
structure ValueStep (s s' : Scan) : Prop where
  state : s'.parser.state = s.parser.state
  nread : s'.parser.nread = s.parser.nread
  mark : s'.mark = s.mark
  passed : s'.passed = s.passed
  skip : s'.skip = s.skip ∨ s'.skip = some (s.skip.getD maxHeaderSize - 1)
  returned : s'.returned = s.returned

theorem ValueStep.of_inner {s : Scan} {p : Parser} (hstate : p.state = s.parser.state)
    (hnread : p.nread = s.parser.nread) : ValueStep s { s with parser := p } :=
  ⟨hstate, hnread, rfl, rfl, .inl rfl, rfl⟩

theorem Inside.next {q : Parser} {w : Bytes} {s s' : Scan} (hs : Inside q w s) (hw : w ≠ [])
    (ch : UInt8)
    (hstep : ValueStep { s with parser := { s.parser with nread := q.nread + 2 } } s') :
    Inside q (w ++ [ch]) (Scan.advance ch { s' with passed := some (w.length - 1) }) := by
  have hpos := List.length_pos_iff.mpr hw
  have hlen : (w ++ [ch]).length = w.length + 1 := by simp
  constructor
  case state => exact hstep.state.trans hs.state
  case nread =>
    change s'.parser.nread = _
    rw [hstep.nread, hlen]
    change q.nread + 2 = _
    omega
  case mark =>
    change s'.mark.map _ = _
    rw [hstep.mark]
    change s.mark.map _ = _
    rw [hs.mark]
    rfl
  case passed =>
    rw [hlen, if_neg (by omega)]
    rfl
  case skip =>
    intro k hk
    rw [hlen]
    -- what `memchr` may skip is one less than before, or all that a header may have
    rcases hstep.skip with h | h
    · have := hs.skip k (h.symm.trans hk)
      omega
    · have hk' : some ((s.skip.getD maxHeaderSize) - 1) = some k := h.symm.trans hk
      cases hk'
      cases hsk : s.skip with
      | none =>
        change maxHeaderSize ≤ maxHeaderSize - 1 + _
        omega
      | some j =>
        have := hs.skip j hsk
        change maxHeaderSize ≤ j - 1 + _
        omega
  case returned => exact hstep.returned.trans hs.returned

/-- A value without line breaks and without blanks around it. -/
def Trimmed (v : Bytes) : Prop :=
  CR ∉ v ∧ LF ∉ v ∧ (v.head? ≠ some SP ∧ v.head? ≠ some HT) ∧
    v.getLast? ≠ some SP ∧ v.getLast? ≠ some HT

instance (v : Bytes) : Decidable (Trimmed v) := inferInstanceAs (Decidable (_ ∧ _))

/-- The parser takes the value: it does not look at the first character. -/
def Readable (v : Bytes) : Prop := ∀ ch ∈ v.tail, isHeaderChar ch = true

instance (v : Bytes) : Decidable (Readable v) := inferInstanceAs (Decidable (∀ _ ∈ _, _))

/-- What the characters of a value do to the parser, as a relation between those read so far and the
parser: it holds behind the first character, and each further one keeps it. -/
structure Reads (q : Parser) (v : Bytes) (P : Bytes → Parser → Prop) : Prop where
  first : ∀ ch, v.head? = some ch → ∃ p,
    headerValueStart ch { parser := { q with nread := q.nread + 1 } } =
      .ret () { parser := p, mark := some (.headerValue, []) } ∧
    p.state = .headerValue ∧ p.nread = q.nread + 1 ∧ P [ch] p
  next : ∀ w ch more s, w ≠ [] → w ++ ch :: more = v → P w s.parser →
    ∃ s', valueChar ch s = .ret () s' ∧ ValueStep s s' ∧ P (w ++ [ch]) s'.parser
  nread : ∀ w p n, P w p → P w { p with nread := n }

section

variable {μ : Type} {c : Callbacks μ} {q : Parser} (o : Owner μ) {P : Bytes → Parser → Prop}

theorem goes_value_first {v : Bytes} (hreads : Reads q v P) (hst : q.state = .headerValueDiscardWs)
    {ch : UInt8} (hhead : v.head? = some ch) (hch : ch ≠ SP ∧ ch ≠ HT ∧ ch ≠ CR ∧ ch ≠ LF)
    (hfit : q.nread + 1 ≤ maxHeaderSize) :
    ∃ s', Goes c { parser := q } o [ch] s' o ∧ Inside q [ch] s' ∧ P [ch] s'.parser := by
  obtain ⟨hsp, hht, hcr, hlf⟩ := hch
  obtain ⟨p, hstart, hstate, hnread, hp⟩ := hreads.first ch hhead
  have hturn : turn ch { parser := q } =
      headerValueStart ch { parser := { q with nread := q.nread + 1 } } := by
    rw [turn_eq (by rw [hst]; rfl) rfl hfit, hst]
    simp [dispatch, headerValueDiscardWs, hsp, hht, hcr, hlf, hst]
  have hrun : (turn ch { parser := q }).run c.handle o =
      (.ok ((), { parser := p, mark := some (.headerValue, []) }), o) := by
    rw [hturn, hstart]
    rfl
  refine ⟨_, goes_of_turn hrun rfl, ?_, hp⟩
  exact ⟨hstate, hnread, rfl, rfl, by simp [Scan.advance], rfl⟩

theorem goes_value_next {v w more : Bytes} {ch : UInt8} {s : Scan} (hreads : Reads q v P)
    (hw : w ≠ []) (hv : w ++ ch :: more = v) (hs : Inside q w s) (hp : P w s.parser)
    (hch : isHeaderChar ch) (hcr : ch ≠ CR) (hlf : ch ≠ LF)
    (hfit : q.nread + w.length + 1 ≤ maxHeaderSize) :
    ∃ s', Goes c s o [ch] s' o ∧ Inside q (w ++ [ch]) s' ∧ P (w ++ [ch]) s'.parser := by
  have hpos := List.length_pos_iff.mpr hw
  have hskip := hs.skip_ne (by omega)
  obtain ⟨s', hchar, hstep, hp'⟩ := hreads.next w ch more
    { s with parser := { s.parser with nread := q.nread + 2 } } hw hv (hreads.nread w _ _ hp)
  have hoffset : s'.offset = w.length - 1 := by
    rw [← hs.offset hw]
    unfold Scan.offset
    rw [hstep.passed]
  have hrun : (turn ch s).run c.handle o =
      (.ok ((), { s' with passed := some (w.length - 1) }), o) := by
    rw [hs.turn_eq hw ch (by omega)]
    simp [headerValue, hskip, hcr, hlf, hch, hchar, hoffset, Inter.run]
  exact ⟨_, goes_of_turn hrun (hstep.returned.trans hs.returned), hs.next hw ch hstep, hp'⟩

/-- **The rule for values**: what the characters preserve one by one holds behind the value. -/
theorem goes_value {v : Bytes} (hreads : Reads q v P) (hst : q.state = .headerValueDiscardWs)
    (hne : v ≠ []) (hcr : CR ∉ v) (hlf : LF ∉ v)
    (hfirst : v.head? ≠ some SP ∧ v.head? ≠ some HT) (hread : Readable v)
    (hfit : q.nread + v.length ≤ maxHeaderSize) :
    ∃ s', Goes c { parser := q } o v s' o ∧ Inside q v s' ∧ P v s'.parser := by
  -- the characters `w` read so far, by induction from their end
  have hpart (w more : Bytes) (hw : w ≠ []) (hv : w ++ more = v) :
      ∃ s', Goes c { parser := q } o w s' o ∧ Inside q w s' ∧ P w s'.parser := by
    induction w using List.reverseRecOn generalizing more with
    | nil => exact absurd rfl hw
    | append_singleton w ch ih =>
      have hlen := congrArg List.length hv
      rw [List.length_append, List.length_append, List.length_singleton] at hlen
      rw [List.append_assoc, List.singleton_append] at hv
      have hmem : ch ∈ v := by
        rw [← hv]
        exact List.mem_append_right w List.mem_cons_self
      have hch : ch ≠ CR ∧ ch ≠ LF := ⟨fun h => hcr (h ▸ hmem), fun h => hlf (h ▸ hmem)⟩
      by_cases hnil : w = []
      · rw [hnil] at hv ⊢
        have hhead : v.head? = some ch := by rw [← hv]; rfl
        refine goes_value_first o hreads hst hhead ⟨?_, ?_, hch⟩ (by omega)
        · exact fun h => hfirst.1 (h ▸ hhead)
        · exact fun h => hfirst.2 (h ▸ hhead)
      · obtain ⟨s, hgo, hs, hp⟩ := ih (ch :: more) hnil hv
        have htail : ch ∈ v.tail := by
          rw [← hv, List.tail_append_of_ne_nil hnil]
          exact List.mem_append_right _ List.mem_cons_self
        obtain ⟨s', hgo', hs', hp'⟩ := goes_value_next (c := c) o hreads hnil hv hs hp
          (hread ch htail) hch.1 hch.2 (by omega)
        exact ⟨s', hgo.trans hgo', hs', hp'⟩
  exact hpart v [] hne (List.append_nil v)

theorem goes_value_end {s : Scan} {w : Bytes} (hw : w ≠ []) (hs : Inside q w s)
    (hfit : q.nread + w.length + 2 ≤ maxHeaderSize) :
    Goes c s o [CR, LF]
      { parser := { s.parser with state := .headerValueLws, nread := q.nread + w.length + 2 } }
      { o with data := c.setHeader o.filed w o.data } := by
  have hpos := List.length_pos_iff.mpr hw
  have hskip := hs.skip_ne (by omega)
  let p₁ : Parser :=
    { s.parser with state := .headerAlmostDone, nread := q.nread + w.length + 1 }
  have hcr : (turn CR s).run c.handle o =
      (.ok ((), { parser := p₁ }), { o with data := c.setHeader o.filed w o.data }) := by
    have hoffset := hs.offset hw
    unfold Scan.offset at hoffset
    rw [hs.turn_eq hw CR (by omega)]
    simp [headerValue, hskip, updateState, setParser, callbackData, callback, hs.mark, Scan.offset,
      hoffset, Inter.run]
    rw [countHeaderSize_eq (by dsimp only; omega)]
    simp [Inter.run, p₁, hs.returned]
    omega
  have hlf : (turn LF { parser := p₁ }).run c.handle
      { o with data := c.setHeader o.filed w o.data } =
      (.ok ((), { parser := { p₁ with state := .headerValueLws, nread := p₁.nread + 1 } }),
        { o with data := c.setHeader o.filed w o.data }) := by
    rw [turn_eq rfl rfl hfit]
    simp [dispatch, headerAlmostDone, updateState, setParser, Inter.run, p₁]
  exact (goes_of_turn hcr rfl).trans (goes_of_turn hlf rfl)

/-- The next line shows that the value has ended. -/
theorem leads_settle {p : Parser} (hst : p.state = .headerValueLws)
    (hfit : p.nread + 1 ≤ maxHeaderSize) :
    Leads c { parser := p } o []
      { parser := { p with
          state := .headerFieldStart, flags := finishValue p.headerState p.flags } } o := by
  intro ch rest hsp hht
  apply run_scan_congr
  rw [turn_eq (by rw [hst]; rfl) rfl hfit, turn_eq rfl rfl hfit, hst]
  simp [dispatch, headerValueLws, hsp, hht, updateState, setParser]

theorem leads_value {v : Bytes} (hreads : Reads q v P) (hst : q.state = .headerValueDiscardWs)
    (hne : v ≠ []) (htrim : Trimmed v) (hread : Readable v)
    (hfit : q.nread + v.length + 3 ≤ maxHeaderSize) :
    ∃ p, P v p ∧ Leads c { parser := q } o (v ++ [CR, LF])
      { parser := { p with
          state := .headerFieldStart
          nread := q.nread + v.length + 2
          flags := finishValue p.headerState p.flags } }
      { o with data := c.setHeader o.filed v o.data } := by
  obtain ⟨hcr, hlf, hfirst, -⟩ := htrim
  obtain ⟨s, hvalue, hs, hp⟩ := goes_value (c := c) o hreads hst hne hcr hlf hfirst hread (by omega)
  have hend := goes_value_end (c := c) o hne hs (by omega)
  have hsettle := (hvalue.trans hend).leads (leads_settle _ rfl hfit)
  rw [List.append_nil] at hsettle
  exact ⟨s.parser, hp, hsettle⟩

end

end Luwu.Http
