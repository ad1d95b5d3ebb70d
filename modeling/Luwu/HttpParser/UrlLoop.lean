import Luwu.HttpParser.Url
import Luwu.Lib.Segments

/-!
# The loop of `http_parser_parse_url`

Both loops behind `http_parser_parse_url` run an automaton and note where its states begin and how
long they last.  For URLs that the 16-bit offsets can address, a field is the segment that the
automaton reads into the states of the field.
-/

namespace Luwu.HttpParser

open Lib

/-! ## Phases -/

/-- The order in which the states are passed; a wrong character ends it. -/
def urlPhase : State → Nat
  | .reqSpacesBeforeUrl => 0
  | .reqSchema => 1
  | .reqSchemaSlash => 2
  | .reqSchemaSlashSlash => 3
  | .reqServerStart => 4
  | .reqServer | .reqServerWithAt => 5
  | .reqPath => 6
  | .reqQueryStringStart => 7
  | .reqQueryString => 8
  | .reqFragmentStart => 9
  | .reqFragment => 10
  | _ => 11

/-- The phase in which a field is read. -/
def fieldPhase : UrlField → Nat
  | .schema => 1
  | .host => 5
  | .path => 6
  | .query => 8
  | .fragment => 10
  | .userinfo | .port => 12

theorem UrlStep.phase_le {st st' : State} {ch : UInt8} (h : UrlStep st ch st') :
    urlPhase st ≤ urlPhase st' := by
  cases h with
  | server hst | serverAt hst | serverPath hst | serverQuery hst =>
    rcases hst with rfl | rfl | rfl <;> decide
  | query hst | queryFragment hst => rcases hst with rfl | rfl <;> decide
  | _ => decide

theorem urlPhase_le (st : State) (ch : UInt8) : urlPhase st ≤ urlPhase (parseUrlChar st ch) := by
  rcases parseUrlChar_step st ch with hdead | hstep
  · rw [hdead]
    cases st <;> decide
  · exact hstep.phase_le

theorem urlField_iff (f : UrlField) (st : State) :
    urlField st = some f ↔ urlPhase st = fieldPhase f := by
  cases f <;> cases st <;> decide

/-! ## Offsets and lengths -/

section

variable {σ : Type} {step : σ → UInt8 → σ} {label : σ → Option UrlField} {buf : Bytes} {base : Nat}
  {s : σ} {pre : Bytes} {u u' : Url} {f : UrlField}

/-- What is noted of the field `f` after `pre`, which starts at the offset `base`: the segment of
the field, and that this ends here if the automaton is in a state of it. -/
structure Noted (step : σ → UInt8 → σ) (label : σ → Option UrlField) (buf : Bytes) (base : Nat)
    (s : σ) (pre : Bytes) (u : Url) (f : UrlField) : Prop where
  len : u.len f = (readInto step label f s pre).length
  data : u.field buf f = readInto step label f s pre
  ends : label (pre.foldl step s) = some f → u.off f + u.len f = base + pre.length

/-- One more character. -/
theorem Noted.snoc {ch : UInt8} (h : Noted step label buf base s pre u f)
    (hat : buf[base + pre.length]? = some ch)
    (hkeep : label (step (pre.foldl step s) ch) ≠ some f → u'.off f = u.off f ∧ u'.len f = u.len f)
    (hgrow : label (step (pre.foldl step s) ch) = some f → label (pre.foldl step s) = some f →
      u'.off f = u.off f ∧ u'.len f = u.len f + 1)
    (henter : label (step (pre.foldl step s) ch) = some f → label (pre.foldl step s) ≠ some f →
      readInto step label f s pre = [] ∧ u'.off f = base + pre.length ∧ u'.len f = 1) :
    Noted step label buf base s (pre ++ [ch]) u' f := by
  have hdata := h.data
  have hrun : (pre ++ [ch]).foldl step s = step (pre.foldl step s) ch := by
    rw [List.foldl_append, List.foldl_cons, List.foldl_nil]
  rw [Url.field] at hdata
  by_cases hin : label (step (pre.foldl step s) ch) = some f
  · by_cases hold : label (pre.foldl step s) = some f
    · obtain ⟨hoff, hlen⟩ := hgrow hin hold
      have hends := h.ends hold
      -- the character stands right behind what has been noted
      have hnext : (buf.drop (u.off f))[u.len f]? = some ch := by
        rw [List.getElem?_drop, hends, hat]
      constructor
      case len => rw [readInto_snoc, if_pos hin, List.length_append, hlen, h.len]; rfl
      case data =>
        rw [readInto_snoc, if_pos hin, Url.field, hoff, hlen, List.take_add_one, hdata, hnext]
        rfl
      case ends =>
        intro _
        rw [hoff, hlen, List.length_append, List.length_singleton]
        omega
    · obtain ⟨hnil, hoff, hlen⟩ := henter hin hold
      have hfirst : (buf.drop (base + pre.length))[0]? = some ch := by
        rw [List.getElem?_drop, Nat.add_zero, hat]
      constructor
      case len => rw [readInto_snoc, if_pos hin, hnil, hlen]; rfl
      case data =>
        rw [readInto_snoc, if_pos hin, hnil, Url.field, hoff, hlen, List.take_add_one, hfirst,
          List.take_zero]
        rfl
      case ends =>
        intro _
        rw [hoff, hlen, List.length_append, List.length_singleton, Nat.add_assoc]
  · obtain ⟨hoff, hlen⟩ := hkeep hin
    constructor
    case len => rw [readInto_snoc, if_neg hin, List.append_nil, hlen, h.len]
    case data => rw [readInto_snoc, if_neg hin, List.append_nil, Url.field, hoff, hlen, hdata]
    case ends =>
      intro hend
      rw [hrun] at hend
      exact absurd hend hin

end

/-! ## `http_parser_parse_url` -/

/-- What is read into a field of the URL. -/
def urlPart (f : UrlField) (w : Bytes) : Bytes :=
  readInto parseUrlChar urlField f .reqSpacesBeforeUrl w

def urlRun (w : Bytes) : State := w.foldl parseUrlChar .reqSpacesBeforeUrl

theorem urlRun_snoc (w : Bytes) (ch : UInt8) : urlRun (w ++ [ch]) = parseUrlChar (urlRun w) ch := by
  rw [urlRun, List.foldl_append]
  rfl

/-- What the loop of `http_parser_parse_url` knows after `pre`. -/
structure UrlNoted (buf pre : Bytes) (old : Option UrlField) (foundAt : Bool) (u : Url) : Prop where
  noted : ∀ f, Noted parseUrlChar urlField buf 0 .reqSpacesBeforeUrl pre u f
  marked : ∀ f, u.fieldSet f = true ↔ urlPart f pre ≠ []
  known : ∀ f, old = some f → urlPart f pre ≠ []
  current : ∀ f, urlField (urlRun pre) = some f → old = some f
  at_iff : foundAt = true ↔ '@'.toUInt8 ∈ urlPart .host pre

section

variable {buf pre : Bytes} {old : Option UrlField} {foundAt : Bool} {u : Url}

theorem urlPart_snoc (f : UrlField) (pre : Bytes) (ch : UInt8) :
    urlPart f (pre ++ [ch]) =
      urlPart f pre ++ if urlField (parseUrlChar (urlRun pre) ch) = some f then [ch] else [] :=
  readInto_snoc _ _ _

/-- The server part has an `@` where the loop finds one. -/
theorem withAt_iff {st : State} {ch : UInt8} (hlive : parseUrlChar st ch ≠ .dead) :
    parseUrlChar st ch = .reqServerWithAt ↔
      urlField (parseUrlChar st ch) = some .host ∧ ch = '@'.toUInt8 := by
  have hstep := (parseUrlChar_step st ch).resolve_left hlive
  generalize parseUrlChar st ch = st' at hstep
  cases hstep with
  | server hst h hat => simp [urlField, hat]
  | serverAt hst => simp [urlField]
  | _ => simp [urlField]

theorem dead_of_dead (w : Bytes) : w.foldl parseUrlChar .dead = .dead := by
  refine foldl_of_stays fun ch _ => ?_
  simp only [parseUrlChar, ite_self]

/-- Nothing has been read into a field that is entered. -/
theorem urlPart_eq_nil {f : UrlField} {ch : UInt8} (hout : urlField (urlRun pre) ≠ some f)
    (hin : urlField (parseUrlChar (urlRun pre) ch) = some f) : urlPart f pre = [] :=
  readInto_eq_nil_of_enters urlPhase_le (urlField_iff f) hout hin

theorem urlPart_snoc_ne_nil {f : UrlField} (h : urlPart f pre ≠ []) (ch : UInt8) :
    urlPart f (pre ++ [ch]) ≠ [] := by
  rw [urlPart_snoc]
  exact List.append_ne_nil_of_left_ne_nil h _

section

variable {ch : UInt8} {rest : Bytes}

theorem UrlNoted.at_snoc (h : UrlNoted buf pre old foundAt u)
    (hlive : parseUrlChar (urlRun pre) ch ≠ .dead) :
    (foundAt || decide (parseUrlChar (urlRun pre) ch = .reqServerWithAt)) = true ↔
      '@'.toUInt8 ∈ urlPart .host (pre ++ [ch]) := by
  rw [Bool.or_eq_true, h.at_iff, decide_eq_true_iff, withAt_iff hlive, urlPart_snoc,
    List.mem_append]
  refine or_congr_right ?_
  split
  · next hhost => simp [hhost, eq_comm]
  · next hhost => simp [hhost]

/-- A delimiter. -/
theorem UrlNoted.delimiter (h : UrlNoted buf pre old foundAt u) (hbuf : buf = pre ++ ch :: rest)
    (hlive : parseUrlChar (urlRun pre) ch ≠ .dead)
    (hfield : urlField (parseUrlChar (urlRun pre) ch) = none) :
    UrlNoted buf (pre ++ [ch]) old
      (foundAt || decide (parseUrlChar (urlRun pre) ch = .reqServerWithAt)) u := by
  have hsame (f : UrlField) : urlPart f (pre ++ [ch]) = urlPart f pre := by
    rw [urlPart_snoc, hfield]
    exact List.append_nil _
  have hno (f : UrlField) : urlField (parseUrlChar (urlRun pre) ch) ≠ some f := by
    rw [hfield]
    simp
  constructor
  case noted =>
    intro f
    exact (h.noted f).snoc (by simp [hbuf]) (fun _ => ⟨rfl, rfl⟩) (fun hin => absurd hin (hno f))
      fun hin => absurd hin (hno f)
  case marked => intro f; rw [h.marked, hsame]
  case known => intro f hold; rw [hsame]; exact h.known f hold
  case current =>
    intro f hin
    rw [urlRun_snoc] at hin
    exact absurd hin (hno f)
  case at_iff => exact h.at_snoc hlive

/-- A further character of a field. -/
theorem UrlNoted.further (h : UrlNoted buf pre old foundAt u) (hbuf : buf = pre ++ ch :: rest)
    (hfit : buf.length < 2 ^ 16) (hlive : parseUrlChar (urlRun pre) ch ≠ .dead) {uf : UrlField}
    (hfield : urlField (parseUrlChar (urlRun pre) ch) = some uf) (hold : old = some uf) :
    UrlNoted buf (pre ++ [ch]) old
      (foundAt || decide (parseUrlChar (urlRun pre) ch = .reqServerWithAt)) (u.incLen uf) := by
  have hlt : pre.length < buf.length := by
    rw [hbuf, List.length_append, List.length_cons]
    omega
  have hother {f : UrlField} (hin : urlField (parseUrlChar (urlRun pre) ch) = some f) : f = uf :=
    Option.some.inj (hin.symm.trans hfield)
  constructor
  case noted =>
    intro f
    refine (h.noted f).snoc (by simp [hbuf]) ?_ ?_ ?_
    · intro hout
      have hne : f ≠ uf := by
        rintro rfl
        exact hout hfield
      exact ⟨rfl, Function.update_of_ne hne _ _⟩
    · intro hin hcurrent
      cases hother hin
      have hends := (h.noted uf).ends hcurrent
      have hlen : (u.len uf + 1) % 2 ^ 16 = u.len uf + 1 := Nat.mod_eq_of_lt (by omega)
      refine ⟨rfl, ?_⟩
      rw [Url.incLen, Url.setLen, hlen]
      exact Function.update_self _ _ _
    · intro hin hout
      cases hother hin
      -- a field that is entered has not been read into before
      exact absurd (urlPart_eq_nil hout hin) (h.known uf hold)
  case marked =>
    intro f
    show u.fieldSet f = true ↔ _
    rw [h.marked]
    constructor
    · exact fun hne => urlPart_snoc_ne_nil hne ch
    · intro hne hnil
      rw [urlPart_snoc, hnil] at hne
      split at hne
      · next hin =>
        cases hother hin
        exact h.known uf hold hnil
      · exact hne rfl
  case known => exact fun f hf => urlPart_snoc_ne_nil (h.known f hf) ch
  case current =>
    intro f hin
    rw [urlRun_snoc] at hin
    rw [hother hin, hold]
  case at_iff => exact h.at_snoc hlive

/-- The first character of a field. -/
theorem UrlNoted.first (h : UrlNoted buf pre old foundAt u) (hbuf : buf = pre ++ ch :: rest)
    (hfit : buf.length < 2 ^ 16) (hlive : parseUrlChar (urlRun pre) ch ≠ .dead) {uf : UrlField}
    (hfield : urlField (parseUrlChar (urlRun pre) ch) = some uf) (hold : old ≠ some uf) :
    UrlNoted buf (pre ++ [ch]) (some uf)
      (foundAt || decide (parseUrlChar (urlRun pre) ch = .reqServerWithAt))
      (((u.setOff uf pre.length).setLen uf 1).mark uf) := by
  have hlt : pre.length < buf.length := by
    rw [hbuf, List.length_append, List.length_cons]
    omega
  have hother {f : UrlField} (hin : urlField (parseUrlChar (urlRun pre) ch) = some f) : f = uf :=
    Option.some.inj (hin.symm.trans hfield)
  have hnew : urlPart uf (pre ++ [ch]) ≠ [] := by
    rw [urlPart_snoc, if_pos hfield]
    simp
  constructor
  case noted =>
    intro f
    refine (h.noted f).snoc (by simp [hbuf]) ?_ ?_ ?_
    · intro hout
      have hne : f ≠ uf := by
        rintro rfl
        exact hout hfield
      exact ⟨Function.update_of_ne hne _ _, Function.update_of_ne hne _ _⟩
    · intro hin hcurrent
      cases hother hin
      exact absurd (h.current uf hcurrent) hold
    · intro hin hout
      cases hother hin
      -- the offset is a uint16_t
      have hoff : pre.length % 2 ^ 16 = pre.length := Nat.mod_eq_of_lt (by omega)
      refine ⟨urlPart_eq_nil hout hin, ?_, Function.update_self _ _ _⟩
      show Function.update u.off uf (pre.length % 2 ^ 16) uf = _
      rw [Function.update_self, hoff, Nat.zero_add]
  case marked =>
    intro f
    show Function.update u.fieldSet uf true f = true ↔ _
    by_cases hf : f = uf
    · rw [hf, Function.update_self]
      exact iff_of_true rfl hnew
    · have hout : urlField (parseUrlChar (urlRun pre) ch) ≠ some f := fun hin => hf (hother hin)
      rw [Function.update_of_ne hf, h.marked, urlPart_snoc, if_neg hout, List.append_nil]
  case known =>
    rintro f ⟨⟩
    exact hnew
  case current =>
    intro f hin
    rw [urlRun_snoc] at hin
    rw [hother hin]
  case at_iff => exact h.at_snoc hlive

end

/-- **The loop reads the segments of the fields.** -/
theorem parseUrlLoop_eq (hfit : buf.length < 2 ^ 16) (rest : Bytes) (hbuf : buf = pre ++ rest)
    (hlive : urlRun pre ≠ .dead) (h : UrlNoted buf pre old foundAt u) :
    (urlRun buf = .dead → parseUrlLoop rest pre.length (urlRun pre) old foundAt u = none) ∧
    (urlRun buf ≠ .dead → ∃ u' old' foundAt',
      parseUrlLoop rest pre.length (urlRun pre) old foundAt u = some (u', foundAt') ∧
        UrlNoted buf buf old' foundAt' u') := by
  -- on what is left of the URL; a dead automaton stays dead
  induction rest generalizing pre old foundAt u with
  | nil =>
    rw [List.append_nil] at hbuf
    subst hbuf
    exact ⟨fun hdead => absurd hdead hlive, fun _ => ⟨u, old, foundAt, rfl, h⟩⟩
  | cons ch rest ih =>
    have hnext : buf = pre ++ [ch] ++ rest := by rw [hbuf, List.append_assoc]; rfl
    have hlen : pre.length + 1 = (pre ++ [ch]).length := by rw [List.length_append]; rfl
    by_cases hch : parseUrlChar (urlRun pre) ch = .dead
    · have hdead : urlRun buf = .dead := by
        rw [hnext, urlRun, List.foldl_append]
        show rest.foldl parseUrlChar (urlRun (pre ++ [ch])) = _
        rw [urlRun_snoc, hch, dead_of_dead]
      refine ⟨fun _ => ?_, fun hno => absurd hdead hno⟩
      rw [parseUrlLoop]
      exact if_pos hch
    · have hrun := urlRun_snoc pre ch
      rw [parseUrlLoop]
      rw [if_neg hch, hlen]
      rw [← hrun]
      have hlive' : urlRun (pre ++ [ch]) ≠ .dead := by rwa [hrun]
      cases hfield : urlField (urlRun (pre ++ [ch])) with
      | none =>
        rw [hrun] at hfield
        have hstep := ih hnext hlive' (h.delimiter hbuf hch hfield)
        rwa [← hrun] at hstep
      | some uf =>
        rw [hrun] at hfield
        dsimp only
        by_cases hold : some uf = old
        · have hstep := ih hnext hlive' (h.further hbuf hfit hch hfield hold.symm)
          rw [if_pos hold]
          rwa [← hrun] at hstep
        · have hstep := ih hnext hlive' (h.first hbuf hfit hch hfield (Ne.symm hold))
          rw [if_neg hold]
          rwa [← hrun] at hstep

theorem urlNoted_nil (buf : Bytes) : UrlNoted buf [] none false {} where
  noted f := ⟨rfl, rfl, fun h => by cases h⟩
  marked f := by simp [urlPart]
  known f h := by cases h
  current f h := by cases h
  at_iff := by simp [urlPart]

end

end Luwu.HttpParser
