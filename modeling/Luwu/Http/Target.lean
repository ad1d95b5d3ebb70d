import Luwu.Http.Lines

/-!
# The target of a request

`dump` puts the target of a request together from its path, query and fragment.  The parser reads it
one character at a time with `parse_url_char`, and `on_request_url_cb` takes it apart again.  The
parts come back as they were, except that the characters `#` at the start of a fragment count as
delimiters.
-/

namespace Luwu.Http

open Lib HttpParser Inter InterM

/-- A path that starts with a slash. -/
def IsPath (path : Bytes) : Prop :=
  path.head? = some '/'.toUInt8 ∧ ∀ ch ∈ path, isUrlChar ch = true

/-- The characters of a query. -/
def IsQuery (query : Bytes) : Prop := ∀ ch ∈ query, (isUrlChar ch || ch = '?'.toUInt8) = true

/-- The characters of a fragment. -/
def IsFragment (fragment : Bytes) : Prop :=
  ∀ ch ∈ fragment, (isUrlChar ch || ch = '?'.toUInt8 || ch = '#'.toUInt8) = true

instance (path : Bytes) : Decidable (IsPath path) := inferInstanceAs (Decidable (_ ∧ _))
instance (query : Bytes) : Decidable (IsQuery query) :=
  inferInstanceAs (Decidable (∀ _ ∈ _, _))
instance (fragment : Bytes) : Decidable (IsFragment fragment) :=
  inferInstanceAs (Decidable (∀ _ ∈ _, _))

theorem parseUrlChar_path {ch : UInt8} (h : isUrlChar ch) :
    parseUrlChar .reqPath ch = .reqPath := by
  revert ch
  apply forall_byte
  decide +kernel

theorem parseUrlChar_query {ch : UInt8} (h : (isUrlChar ch || ch = '?'.toUInt8) = true) :
    parseUrlChar .reqQueryStringStart ch = .reqQueryString ∧
      parseUrlChar .reqQueryString ch = .reqQueryString := by
  revert ch
  apply forall_byte
  decide +kernel

theorem parseUrlChar_fragment {ch : UInt8}
    (h : (isUrlChar ch || ch = '?'.toUInt8 || ch = '#'.toUInt8) = true) :
    (ch ≠ '#'.toUInt8 → parseUrlChar .reqFragmentStart ch = .reqFragment) ∧
      parseUrlChar .reqFragment ch = .reqFragment := by
  revert ch
  apply forall_byte
  decide +kernel

/-! ## Splitting the target -/

/-- The fields after a character of the field `f`: the offset is set at the first one. -/
def noteField (u : Url) (f : UrlField) (off len : Nat) : Url :=
  ((u.setOff f off).setLen f len).mark f

theorem parseUrlLoop_delim {ch : UInt8} {st : State} (st' : State) (hst' : parseUrlChar st ch = st')
    (hdead : st' ≠ .dead) (hat : st' ≠ .reqServerWithAt) (hfield : urlField st' = none)
    (rest : Bytes) (i : Nat) (old : Option UrlField) (u : Url) :
    parseUrlLoop (ch :: rest) i st old false u = parseUrlLoop rest (i + 1) st' old false u := by
  rw [parseUrlLoop]
  simp only [hst', hdead, if_false, hfield, hat, decide_false, Bool.or_false]

/-- The characters of a field after its first one. -/
theorem parseUrlLoop_same {w : Bytes} {st : State} {f : UrlField}
    (hw : ∀ ch ∈ w, parseUrlChar st ch = st) (hdead : st ≠ .dead) (hat : st ≠ .reqServerWithAt)
    (hfield : urlField st = some f) (rest : Bytes) (i : Nat) (u : Url) (off len : Nat) :
    parseUrlLoop (w ++ rest) i st (some f) false (noteField u f off len) =
      parseUrlLoop rest (i + w.length) st (some f) false (noteField u f off (len + w.length)) := by
  induction w generalizing i len with
  | nil => rfl
  | cons ch w ih =>
    have hch := hw ch List.mem_cons_self
    have hinc : (noteField u f off len).incLen f = noteField u f off (len + 1) := by
      simp [noteField, Url.incLen, Url.setLen, Url.setOff, Url.mark]
    rw [List.cons_append, parseUrlLoop]
    simp only [hch, hdead, if_false, hfield, hat, decide_false, Bool.or_false, if_true]
    rw [hinc, ih (fun c hc => hw c (List.mem_cons_of_mem ch hc)), List.length_cons]
    congr 1
    · omega
    · congr 1
      omega

/-- A field from its first character on. -/
theorem parseUrlLoop_field {ch : UInt8} {w : Bytes} {st : State} (st' : State) {f : UrlField}
    (hst' : parseUrlChar st ch = st') (hw : ∀ ch ∈ w, parseUrlChar st' ch = st')
    (hdead : st' ≠ .dead) (hat : st' ≠ .reqServerWithAt) (hfield : urlField st' = some f)
    {old : Option UrlField} (hold : some f ≠ old) (rest : Bytes) (i : Nat) (u : Url) :
    parseUrlLoop (ch :: w ++ rest) i st old false u =
      parseUrlLoop rest (i + (ch :: w).length) st' (some f) false
        (noteField u f i (ch :: w).length) := by
  rw [List.cons_append, parseUrlLoop]
  simp only [hst', hdead, if_false, hfield, hat, decide_false, Bool.or_false, hold]
  change parseUrlLoop _ _ _ _ _ (noteField u f i 1) = _
  rw [parseUrlLoop_same hw hdead hat hfield, List.length_cons]
  congr 1
  · omega
  · congr 1
    omega

/-- The part of a target that a delimiter announces. -/
def delimited (delim part : Bytes) : Bytes := if part = [] then [] else delim ++ part

theorem target_eq (path query fragment : Bytes) :
    target path query fragment =
      path ++ delimited (ascii "?") query ++ delimited (ascii "#") fragment := by
  unfold target delimited
  by_cases hquery : query = [] <;> by_cases hfragment : fragment = [] <;>
    simp [hquery, hfragment]

/-- What is left of a fragment without the characters that count as delimiters. -/
def fragmentRest (fragment : Bytes) : Bytes := fragment.dropWhile (· = '#'.toUInt8)

theorem fragmentRest_eq_iff {fragment : Bytes} :
    fragmentRest fragment = fragment ↔ fragment.head? ≠ some '#'.toUInt8 := by
  cases fragment with
  | nil => simp [fragmentRest]
  | cons ch fragment =>
    rw [List.head?_cons, ne_eq, Option.some.injEq, fragmentRest]
    by_cases hch : ch = '#'.toUInt8
    · have hle : (fragment.dropWhile (· = '#'.toUInt8)).length ≤ fragment.length :=
        (List.dropWhile_suffix _).length_le
      rw [List.dropWhile_cons_of_pos (by simpa using hch)]
      refine ⟨fun h => ?_, fun h => absurd hch h⟩
      rw [h, List.length_cons] at hle
      omega
    · rw [List.dropWhile_cons_of_neg (by simpa using hch)]
      exact ⟨fun _ => hch, fun _ => rfl⟩

/-- The fields after the query, whose delimiter is at `i`. -/
def withQuery (u : Url) (i : Nat) (query : Bytes) : Url :=
  if query = [] then u else noteField u .query (i + 1) query.length

/-- The fields after the fragment. -/
def withFragment (u : Url) (i : Nat) (fragment : Bytes) : Url :=
  if fragmentRest fragment = [] then u
  else noteField u .fragment (i + 1 + (fragment.length - (fragmentRest fragment).length))
    (fragmentRest fragment).length

theorem parseUrlLoop_query {query : Bytes} (hquery : IsQuery query) (rest : Bytes) (i : Nat)
    (u : Url) :
    parseUrlLoop (delimited (ascii "?") query ++ rest) i .reqPath (some .path) false u =
      parseUrlLoop rest (i + (delimited (ascii "?") query).length)
        (if query = [] then .reqPath else .reqQueryString)
        (some (if query = [] then .path else .query)) false (withQuery u i query) := by
  cases query with
  | nil => rfl
  | cons ch query =>
    have hfirst := parseUrlChar_query (hquery ch List.mem_cons_self)
    change parseUrlLoop ('?'.toUInt8 :: (ch :: query ++ rest)) i .reqPath (some .path) false u = _
    rw [parseUrlLoop_delim .reqQueryStringStart (by decide) (by decide) (by decide) rfl,
      parseUrlLoop_field .reqQueryString hfirst.1
        (fun c hc => (parseUrlChar_query (hquery c (List.mem_cons_of_mem ch hc))).2)
        (by decide) (by decide) rfl (by decide)]
    simp only [withQuery, delimited, List.cons_ne_nil, if_false]
    congr 1
    change i + 1 + _ = i + ((ch :: query).length + 1)
    omega

/-- The characters at the start of a fragment that count as delimiters. -/
theorem parseUrlLoop_hashes {fragment : Bytes} (hfragment : IsFragment fragment) (i : Nat)
    {old : Option UrlField} (hold : some .fragment ≠ old) (u : Url) :
    parseUrlLoop fragment i .reqFragmentStart old false u =
      some (if fragmentRest fragment = [] then u
        else noteField u .fragment (i + (fragment.length - (fragmentRest fragment).length))
          (fragmentRest fragment).length, false) := by
  induction fragment generalizing i with
  | nil => rfl
  | cons ch fragment ih =>
    have hrest : IsFragment fragment := fun c hc => hfragment c (List.mem_cons_of_mem ch hc)
    -- another delimiter, or the first character of the fragment
    by_cases hch : ch = '#'.toUInt8
    · have hdrop : fragmentRest (ch :: fragment) = fragmentRest fragment := by
        rw [fragmentRest, List.dropWhile_cons_of_pos (by simpa using hch)]
        rfl
      have hle : (fragmentRest fragment).length ≤ fragment.length :=
        (List.dropWhile_suffix _).length_le
      rw [hch, parseUrlLoop_delim .reqFragmentStart (by decide) (by decide) (by decide) rfl,
        ih hrest, ← hch, hdrop, List.length_cons]
      congr 4
      omega
    · have hdrop : fragmentRest (ch :: fragment) = ch :: fragment := by
        rw [fragmentRest, List.dropWhile_cons_of_neg (by simpa using hch)]
      have hloop := parseUrlLoop_field .reqFragment
        ((parseUrlChar_fragment (hfragment ch List.mem_cons_self)).1 hch)
        (fun c hc => (parseUrlChar_fragment (hrest c hc)).2) (by decide) (by decide) rfl hold [] i u
      rw [List.append_nil] at hloop
      rw [hloop, hdrop, if_neg (List.cons_ne_nil _ _), Nat.sub_self]
      rfl

theorem parseUrlLoop_fragment {fragment : Bytes} (hfragment : IsFragment fragment) (i : Nat)
    {st : State} (hst : parseUrlChar st '#'.toUInt8 = .reqFragmentStart) {f : UrlField}
    (hf : f ≠ .fragment) (u : Url) :
    parseUrlLoop (delimited (ascii "#") fragment) i st (some f) false u =
      some (withFragment u i fragment, false) := by
  cases fragment with
  | nil => rfl
  | cons ch fragment =>
    change parseUrlLoop ('#'.toUInt8 :: (ch :: fragment)) i st (some f) false u = _
    rw [parseUrlLoop_delim _ hst (by decide) (by decide) rfl,
      parseUrlLoop_hashes hfragment _ (by simpa using Ne.symm hf)]
    rfl

/-- The fields of the target. -/
def targetUrl (path query fragment : Bytes) : Url :=
  withFragment (withQuery (noteField {} .path 0 path.length) path.length query)
    (path.length + (delimited (ascii "?") query).length) fragment

theorem parseUrlLoop_target {path query fragment : Bytes} (hpath : IsPath path)
    (hquery : IsQuery query) (hfragment : IsFragment fragment) :
    parseUrlLoop (target path query fragment) 0 .reqSpacesBeforeUrl none false {} =
      some (targetUrl path query fragment, false) := by
  obtain ⟨hhead, hchars⟩ := hpath
  cases path with
  | nil => cases hhead
  | cons ch path =>
    cases hhead
    rw [target_eq, List.append_assoc, parseUrlLoop_field .reqPath (by decide)
      (fun c hc => parseUrlChar_path (hchars c (List.mem_cons_of_mem _ hc))) (by decide) (by decide)
      rfl (by decide), parseUrlLoop_query hquery, parseUrlLoop_fragment hfragment]
    · rw [Nat.zero_add]
      rfl
    · split <;> decide
    · split <;> decide

/-! ## The parts of the target -/

section

variable (u : Url) (f : UrlField) (off len : Nat) (buf : Bytes)

@[simp] theorem noteField_fieldSet (g : UrlField) :
    (noteField u f off len).fieldSet g = if g = f then true else u.fieldSet g :=
  Function.update_apply u.fieldSet f true g

theorem noteField_field_self :
    (noteField u f off len).field buf f = (buf.drop (off % 2 ^ 16)).take (len % 2 ^ 16) := by
  simp [noteField, Url.field, Url.setOff, Url.setLen, Url.mark]

theorem noteField_field_ne {g : UrlField} (h : g ≠ f) :
    (noteField u f off len).field buf g = u.field buf g := by
  simp [noteField, Url.field, Url.setOff, Url.setLen, Url.mark, h]

theorem urlPart_noteField_self (dflt : Bytes) :
    urlPart (noteField u f off len) buf f dflt =
      (buf.drop (off % 2 ^ 16)).take (len % 2 ^ 16) := by
  rw [urlPart, noteField_fieldSet, if_pos rfl, if_pos rfl, noteField_field_self]

theorem urlPart_noteField_ne {g : UrlField} (h : g ≠ f) (dflt : Bytes) :
    urlPart (noteField u f off len) buf g dflt = urlPart u buf g dflt := by
  rw [urlPart, noteField_fieldSet, if_neg h, noteField_field_ne u f off len buf h]
  rfl

end

section

variable {path query fragment : Bytes}

theorem targetUrl_fieldSet {f : UrlField} (hpath : f ≠ .path) (hquery : f ≠ .query)
    (hfragment : f ≠ .fragment) : (targetUrl path query fragment).fieldSet f = false := by
  unfold targetUrl withFragment withQuery
  split <;> split <;> simp [hpath, hquery, hfragment]

theorem parseUrl_target (hpath : IsPath path) (hquery : IsQuery query)
    (hfragment : IsFragment fragment) :
    parseUrl (target path query fragment) false = some (targetUrl path query fragment) := by
  have hne : ¬ (target path query fragment).length = 0 := by
    obtain ⟨hhead, -⟩ := hpath
    cases path with
    | nil => cases hhead
    | cons ch path => exact Nat.succ_ne_zero _
  have hloop := parseUrlLoop_target hpath hquery hfragment
  have hunset {f : UrlField} (hp : f ≠ .path) (hq : f ≠ .query) (hf : f ≠ .fragment) :
      (targetUrl path query fragment).fieldSet f = false := targetUrl_fieldSet hp hq hf
  rw [parseUrl, if_neg hne]
  simp [hloop, hunset]

/-- The offsets and lengths of the parts are not too large for 16 bits. -/
structure TargetFits (path query fragment : Bytes) : Prop where
  inPath : path.length < 2 ^ 16
  inQuery : query ≠ [] → path.length + 1 < 2 ^ 16 ∧ query.length < 2 ^ 16
  inFragment : fragmentRest fragment ≠ [] →
    path.length + (delimited (ascii "?") query).length + 1 +
        (fragment.length - (fragmentRest fragment).length) < 2 ^ 16 ∧
      (fragmentRest fragment).length < 2 ^ 16

theorem urlPart_withFragment {g : UrlField} (h : g ≠ .fragment) (u : Url) (i : Nat)
    (fragment buf dflt : Bytes) :
    urlPart (withFragment u i fragment) buf g dflt = urlPart u buf g dflt := by
  unfold withFragment
  split
  · rfl
  · exact urlPart_noteField_ne u _ _ _ buf h dflt

theorem urlPart_withQuery {g : UrlField} (h : g ≠ .query) (u : Url) (i : Nat)
    (query buf dflt : Bytes) :
    urlPart (withQuery u i query) buf g dflt = urlPart u buf g dflt := by
  unfold withQuery
  split
  · rfl
  · exact urlPart_noteField_ne u _ _ _ buf h dflt

theorem urlPart_path (hfits : TargetFits path query fragment) (dflt : Bytes) :
    urlPart (targetUrl path query fragment) (target path query fragment) .path dflt = path := by
  rw [targetUrl, urlPart_withFragment (by decide), urlPart_withQuery (by decide),
    urlPart_noteField_self, Nat.mod_eq_of_lt hfits.inPath, target_eq, List.append_assoc]
  exact List.take_left

theorem urlPart_query (hfits : TargetFits path query fragment) :
    urlPart (targetUrl path query fragment) (target path query fragment) .query [] = query := by
  rw [targetUrl, urlPart_withFragment (by decide), withQuery]
  by_cases hquery : query = []
  · rw [if_pos hquery, urlPart_noteField_ne _ _ _ _ _ (by decide), hquery]
    rfl
  · obtain ⟨hoff, hlen⟩ := hfits.inQuery hquery
    have hbuf : target path query fragment =
        (path ++ ascii "?") ++ (query ++ delimited (ascii "#") fragment) := by
      rw [target_eq, delimited, if_neg hquery]
      simp only [List.append_assoc]
    have hpos : path.length + 1 = (path ++ ascii "?").length := by
      rw [List.length_append]
      rfl
    rw [if_neg hquery, urlPart_noteField_self, Nat.mod_eq_of_lt hoff, Nat.mod_eq_of_lt hlen, hbuf,
      hpos, List.drop_left, List.take_left]

theorem urlPart_fragment (hfits : TargetFits path query fragment) :
    urlPart (targetUrl path query fragment) (target path query fragment) .fragment [] =
      fragmentRest fragment := by
  rw [targetUrl, withFragment]
  by_cases hrest : fragmentRest fragment = []
  · rw [if_pos hrest, urlPart_withQuery (by decide), urlPart_noteField_ne _ _ _ _ _ (by decide),
      hrest]
    rfl
  · obtain ⟨hoff, hlen⟩ := hfits.inFragment hrest
    have hne : fragment ≠ [] := by
      rintro rfl
      exact hrest rfl
    -- the delimiters of the fragment stand in front of the rest of it
    let hashes := fragment.takeWhile (· = '#'.toUInt8)
    have hfragment : fragment = hashes ++ fragmentRest fragment :=
      List.takeWhile_append_dropWhile.symm
    have hbuf : target path query fragment =
        (path ++ delimited (ascii "?") query ++ (ascii "#" ++ hashes)) ++
          (fragmentRest fragment ++ []) := by
      have hdelim : delimited (ascii "#") fragment =
          ascii "#" ++ (hashes ++ fragmentRest fragment) := by
        rw [delimited, if_neg hne, ← hfragment]
      rw [target_eq, hdelim, List.append_nil]
      simp only [List.append_assoc]
    have hlength := congrArg List.length hfragment
    rw [List.length_append] at hlength
    have hpos : path.length + (delimited (ascii "?") query).length + 1 +
          (fragment.length - (fragmentRest fragment).length) =
        (path ++ delimited (ascii "?") query ++ (ascii "#" ++ hashes)).length := by
      simp only [List.length_append]
      change _ = _ + (1 + hashes.length)
      omega
    rw [if_neg hrest, urlPart_noteField_self, Nat.mod_eq_of_lt hoff, Nat.mod_eq_of_lt hlen, hbuf,
      hpos, List.drop_left, List.take_left]

/-- **What `on_request_url_cb` makes of the target**: the parts it was put together from. -/
theorem onRequestUrl_target (hpath : IsPath path) (hquery : IsQuery query)
    (hfragment : IsFragment fragment) (hfits : TargetFits path query fragment) {r : HttpRequest}
    (hrq : r.query = []) (hrf : r.fragment = []) :
    onRequestUrl (target path query fragment) r =
      some { r with path, query, fragment := fragmentRest fragment } := by
  rw [onRequestUrl, parseUrl_target hpath hquery hfragment, Option.map_some, hrq, hrf,
    urlPart_path hfits, urlPart_query hfits, urlPart_fragment hfits]

end

/-! ## Reading the target -/

/-- The states behind the path's first slash. -/
def inTarget : State → Bool
  | .reqPath | .reqQueryStringStart | .reqQueryString | .reqFragmentStart | .reqFragment => true
  | _ => false

theorem inTarget_next {st : State} (hst : inTarget st) (ch : UInt8) :
    parseUrlChar st ch = .dead ∨ inTarget (parseUrlChar st ch) = true := by
  revert ch
  apply forall_byte
  cases st <;> first | (cases hst; done) | decide +kernel

theorem foldl_dead (d : Bytes) : d.foldl parseUrlChar .dead = .dead := by
  induction d with
  | nil => rfl
  | cons ch d ih =>
    have hdead : parseUrlChar .dead ch = .dead := by
      simp [parseUrlChar]
    rw [List.foldl_cons, hdead, ih]

/-- A URL that can be taken apart has no character that is not accepted. -/
theorem foldl_ne_dead {d : Bytes} {i : Nat} {st : State} {old : Option UrlField} {foundAt : Bool}
    {u : Url} {r : Url × Bool} (hst : st ≠ .dead)
    (h : parseUrlLoop d i st old foundAt u = some r) : d.foldl parseUrlChar st ≠ .dead := by
  induction d generalizing i st old foundAt u with
  | nil => exact hst
  | cons ch d ih =>
    rw [parseUrlLoop] at h
    split at h
    · cases h
    · next hne =>
      split at h
      · exact ih hne h
      · split at h <;> exact ih hne h

/-- The loop in a URL, behind its characters `w`. -/
def urlScan (p : Parser) (w : Bytes) (st : State) : Scan where
  parser := { p with state := st, nread := p.nread + w.length }
  mark := some (.url, w)

section

variable {μ : Type} {c : Callbacks μ} {p : Parser} (o : Owner μ)

theorem goes_url_first (hst : p.state = .reqSpacesBeforeUrl) (hmethod : p.method ≠ .connect)
    (hfit : p.nread + 1 ≤ maxHeaderSize) :
    Goes c { parser := p } o ['/'.toUInt8] (urlScan p ['/'.toUInt8] .reqPath) o := by
  have hslash : parseUrlChar .reqSpacesBeforeUrl '/'.toUInt8 = .reqPath := by decide
  have hturn : (turn '/'.toUInt8 { parser := p }).run c.handle o =
      (.ok ((), { parser := { p with state := .reqPath, nread := p.nread + 1 }
                  mark := some (.url, []) }), o) := by
    rw [turn_eq (by rw [hst]; rfl) rfl hfit, hst]
    simp [dispatch, reqSpacesBeforeUrl, show '/'.toUInt8 ≠ SP by decide, setMark, setParser,
      hmethod, urlChar, updateState, hst, hslash, Inter.run]
  exact goes_of_turn hturn rfl

theorem goes_url_next {w : Bytes} {st : State} (hst : inTarget st) {ch : UInt8}
    (hch : parseUrlChar st ch ≠ .dead) (hfit : p.nread + w.length + 1 ≤ maxHeaderSize) :
    Goes c (urlScan p w st) o [ch] (urlScan p (w ++ [ch]) (parseUrlChar st ch)) o := by
  have hnot : ch ≠ SP ∧ ch ≠ CR ∧ ch ≠ LF := by
    refine ⟨?_, ?_, ?_⟩ <;>
    · rintro rfl
      exact hch (by simp [parseUrlChar])
  have hdispatch : dispatch st ch = reqUrl ch := by
    cases st <;> first | rfl | cases hst
  have hparsing : st.parsingHeader = true := by
    cases st <;> first | rfl | cases hst
  have hturn : (turn ch (urlScan p w st)).run c.handle o =
      (.ok ((), { parser := { p with
          state := parseUrlChar st ch, nread := p.nread + w.length + 1 }
                  mark := some (.url, w) }), o) := by
    rw [turn_eq hparsing rfl hfit]
    change (dispatch st ch _).run c.handle o = _
    rw [hdispatch]
    simp [reqUrl, hnot, urlChar, updateState, setParser, urlScan, hch, Inter.run]
  have hadvance : Scan.advance ch { parser := { p with
      state := parseUrlChar st ch, nread := p.nread + w.length + 1 }, mark := some (.url, w) } =
      urlScan p (w ++ [ch]) (parseUrlChar st ch) := by
    simp [Scan.advance, urlScan, Nat.add_assoc]
  rw [← hadvance]
  exact goes_of_turn hturn rfl

theorem goes_url {d w : Bytes} {st : State} (hst : inTarget st)
    (hd : d.foldl parseUrlChar st ≠ .dead)
    (hfit : p.nread + w.length + d.length ≤ maxHeaderSize) :
    Goes c (urlScan p w st) o d (urlScan p (w ++ d) (d.foldl parseUrlChar st)) o ∧
      inTarget (d.foldl parseUrlChar st) = true := by
  induction d generalizing w st with
  | nil =>
    rw [List.append_nil]
    exact ⟨.refl _ _, hst⟩
  | cons ch d ih =>
    rw [List.foldl_cons] at hd
    rw [List.length_cons] at hfit
    have hch : parseUrlChar st ch ≠ .dead := by
      intro hdead
      rw [hdead, foldl_dead] at hd
      exact hd rfl
    have hnext := (inTarget_next hst ch).resolve_left hch
    obtain ⟨hgo, hin⟩ := ih (w := w ++ [ch]) hnext hd (by
      rw [List.length_append, List.length_singleton]
      omega)
    refine ⟨?_, hin⟩
    have hstep := (goes_url_next (c := c) o hst hch (by omega)).trans hgo
    rwa [List.append_assoc] at hstep

/-- **The target of a request**: the callback for the URL is given the whole of it. -/
theorem goes_target (hst : p.state = .reqSpacesBeforeUrl) (hmethod : p.method ≠ .connect)
    {path query fragment : Bytes} (hpath : IsPath path) (hquery : IsQuery query)
    (hfragment : IsFragment fragment)
    (hfit : p.nread + (target path query fragment).length + 1 ≤ maxHeaderSize) {d : μ}
    (hurl : c.url (target path query fragment) o.data = some d) :
    Goes c { parser := p } o (target path query fragment ++ [SP])
      { parser := { p with
          state := .reqHttpStart
          nread := p.nread + (target path query fragment).length + 1 } }
      { o with data := d } := by
  have halive := foldl_ne_dead (by decide) (parseUrlLoop_target hpath hquery hfragment)
  -- the target starts with the slash of its path, which sets the mark
  obtain ⟨w, hw⟩ : ∃ w, target path query fragment = '/'.toUInt8 :: w := by
    obtain ⟨hhead, -⟩ := hpath
    cases path with
    | nil => cases hhead
    | cons ch path =>
      cases hhead
      exact ⟨_, rfl⟩
  generalize htarget : target path query fragment = t at *
  subst hw
  have hslash : parseUrlChar .reqSpacesBeforeUrl '/'.toUInt8 = .reqPath := by decide
  rw [List.foldl_cons, hslash] at halive
  rw [List.length_cons] at hfit
  have hfirst := goes_url_first (c := c) o hst hmethod (by omega)
  obtain ⟨hrest, hin⟩ := goes_url (c := c) (p := p) (w := ['/'.toUInt8]) o (by decide) halive
    (by rw [List.length_singleton]; omega)
  generalize hlast : w.foldl parseUrlChar .reqPath = st at hrest hin
  -- in every state that the target may end in, the blank ends it
  have hdispatch : dispatch st SP = reqUrl SP := by
    cases st <;> first | rfl | cases hin
  have hparsing : st.parsingHeader = true := by
    cases st <;> first | rfl | cases hin
  have hturn : (turn SP (urlScan p ('/'.toUInt8 :: w) st)).run c.handle o =
      (.ok ((), { parser := { p with
          state := .reqHttpStart, nread := p.nread + ('/'.toUInt8 :: w).length + 1 } }),
        { o with data := d }) := by
    rw [turn_eq hparsing rfl hfit]
    change (dispatch st SP _).run c.handle o = _
    rw [hdispatch]
    simp [reqUrl, updateState, setParser, urlScan, callbackData, callback, Callbacks.handle, hurl,
      Inter.run]
  exact (hfirst.trans hrest).trans (goes_of_turn hturn rfl)

end

end Luwu.Http
