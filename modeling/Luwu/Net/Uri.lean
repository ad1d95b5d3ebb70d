import Luwu.Http.Fields
import Luwu.Http.Target
import Luwu.HttpParser.Split

/-!
# URIs

`URI::Create` copies the fields that `http_parser_parse_url` finds, and `URI::toString` puts them
together again.  A host in brackets is printed without them.
-/

namespace Luwu

open Lib HttpParser

structure URI where
  scheme : Bytes := []
  userinfo : Bytes := []
  host : Bytes := []
  path : Bytes := []
  query : Bytes := []
  fragment : Bytes := []
  port : UInt16 := 0
deriving DecidableEq

namespace URI

/-- The port that `Create` sets without one in the URL. -/
def defaultPort (scheme : Bytes) : UInt16 :=
  if scheme = ascii "http" ∨ scheme = ascii "ws" then 80
  else if scheme = ascii "https" ∨ scheme = ascii "wss" then 443
  else 0

/-- `Create`.  The field of the port has digits only, and `std::stoi` reads their number. -/
def create (url : Bytes) : Option URI :=
  match parseUrl url false with
  | none => none
  | some parser =>
    let field (f : UrlField) : Bytes := if parser.fieldSet f then parser.field url f else []
    let scheme := field .schema
    some
      { scheme
        userinfo := field .userinfo
        host := field .host
        port :=
          if parser.fieldSet .port then UInt16.ofNat (portValue (parser.field url .port) 0)
          else defaultPort scheme
        path := field .path
        query := field .query
        fragment := field .fragment }

def getPath (u : URI) : Bytes := if u.path = [] then ascii "/" else u.path

def getPort (u : URI) : UInt16 := if u.port ≠ 0 then u.port else defaultPort u.scheme

def isDefaultPort (u : URI) : Bool :=
  if u.scheme = ascii "http" ∨ u.scheme = ascii "ws" then u.port = 80
  else if u.scheme = ascii "https" ∨ u.scheme = ascii "wss" then u.port = 443
  else false

def toString (u : URI) : Bytes :=
  u.scheme ++ ascii "://" ++ u.userinfo ++ (if u.userinfo = [] then [] else ascii "@") ++ u.host ++
    (if u.isDefaultPort then [] else ascii ":" ++ Http.decimal u.getPort.toNat) ++ u.getPath ++
    (if u.query = [] then [] else ascii "?") ++ u.query ++
    (if u.fragment = [] then [] else ascii "#") ++ u.fragment

/-! ## What is parsed -/

/-- The URI of an accepted URL. -/
def ofUrl (url : Bytes) : URI where
  scheme := fieldOf url .schema
  userinfo := fieldOf url .userinfo
  host := fieldOf url .host
  path := fieldOf url .path
  query := fieldOf url .query
  fragment := fieldOf url .fragment
  port :=
    if fieldOf url .port ≠ [] then UInt16.ofNat (portValue (fieldOf url .port) 0)
    else defaultPort (fieldOf url .schema)

theorem create_eq {url : Bytes} (hsplits : Splits url) :
    (¬ Accepted url → create url = none) ∧ (Accepted url → create url = some (ofUrl url)) := by
  constructor
  · intro hno
    rw [create, hsplits.rejects hno]
  · intro h
    obtain ⟨parser, hparse, hsplit⟩ := hsplits.accepts h
    have hfield (f : UrlField) :
        (if parser.fieldSet f then parser.field url f else []) = fieldOf url f := by
      split
      · exact hsplit.field f
      · next hset =>
        -- the bit of the host is that of the server part
        by_cases hf : f = .host
        · subst hf
          have hnone : urlPart .host url = [] := by
            by_contra hne
            exact hset (hsplit.host.mpr hne)
          show [] = hostPart (hasAt url) .host (urlPart .host url)
          rw [hnone]
          rfl
        · by_contra hne
          exact hset ((hsplit.marked f hf).mpr (Ne.symm hne))
    have hport : parser.fieldSet .port = true ↔ fieldOf url .port ≠ [] :=
      hsplit.marked .port (by decide)
    rw [create, hparse]
    dsimp only
    simp only [hfield]
    simp only [hsplit.field, hport, ofUrl]

/-! ## What the fields are made of -/

/-- The fields of a URI that has been parsed, if it has a scheme and a host. -/
structure WellFormed (u : URI) : Prop where
  scheme_ne : u.scheme ≠ []
  scheme : ∀ ch ∈ u.scheme, isAlpha ch = true
  userinfo : ∀ ch ∈ u.userinfo, isUserinfoChar ch = true
  host_ne : u.host ≠ []
  host : ∀ ch ∈ u.host, ch ≠ '['.toUInt8 ∧ ch ≠ '@'.toUInt8 ∧ ch ≠ '/'.toUInt8
  path : u.path = [] ∨ Http.IsPath u.path
  query : Http.IsQuery u.query
  fragment : Http.IsFragment u.fragment
  fragment_head : u.fragment.head? ≠ some '#'.toUInt8

section

variable {url : Bytes} {f : UrlField} {P : UInt8 → Prop}

theorem urlPart_forall
    (hP : ∀ st ch st', UrlStep st ch st' → urlField st' = some f → P ch) (url : Bytes) :
    ∀ ch ∈ urlPart f url, P ch := by
  refine readInto_forall (I := fun _ => True) (fun _ _ _ _ => trivial) ?_ trivial
  intro st ch _ _ hlabel
  rcases parseUrlChar_step st ch with hdead | hstep
  · rw [hdead] at hlabel
    cases hlabel
  · exact hP _ _ _ hstep hlabel

theorem hostPart_forall {foundAt : Bool} {w : Bytes}
    (hP : ∀ s ch s', HostStep s ch s' → hostLabel s' = some f → P ch) :
    ∀ ch ∈ hostPart foundAt f w, P ch := by
  refine readInto_forall (I := fun _ => True) (fun _ _ _ _ => trivial) ?_ trivial
  intro s ch _ _ hlabel
  rcases parseHostChar_step s ch with hdead | hstep
  · rw [hdead] at hlabel
    cases hlabel
  · exact hP _ _ _ hstep hlabel

theorem schema_chars (url : Bytes) : ∀ ch ∈ urlPart .schema url, isAlpha ch = true := by
  refine urlPart_forall ?_ url
  intro st ch st' hstep hlabel
  cases hstep with
  | schemaFirst h => exact h
  | schema h => exact h
  | _ => cases hlabel

theorem path_chars (url : Bytes) : ∀ ch ∈ urlPart .path url, isUrlChar ch = true := by
  refine urlPart_forall ?_ url
  intro st ch st' hstep hlabel
  cases hstep with
  | pathFirst h => rcases h with rfl | rfl <;> decide
  | serverPath hst => decide
  | path h => exact h
  | _ => cases hlabel

theorem query_chars (url : Bytes) : Http.IsQuery (urlPart .query url) := by
  refine urlPart_forall ?_ url
  intro st ch st' hstep hlabel
  cases hstep with
  | query hst h => simpa using h
  | _ => cases hlabel

theorem fragment_chars (url : Bytes) : Http.IsFragment (urlPart .fragment url) := by
  refine urlPart_forall ?_ url
  intro st ch st' hstep hlabel
  cases hstep with
  | fragmentFirst h hhash =>
    rcases h with h | h
    · simp [h]
    · simp [h]
  | fragment h => simpa [or_assoc] using h
  | _ => cases hlabel

theorem fragment_head (url : Bytes) : (urlPart .fragment url).head? ≠ some '#'.toUInt8 := by
  intro hhead
  refine readInto_head (I := fun _ => True) (P := fun ch => ch ≠ '#'.toUInt8) (fun _ _ _ => trivial)
    ?_ trivial (by decide) url _ hhead rfl
  intro st ch _ hout hlabel
  rcases parseUrlChar_step st ch with hdead | hstep
  · rw [hdead] at hlabel
    cases hlabel
  · generalize parseUrlChar st ch = st' at hstep hlabel
    cases hstep with
    | fragmentFirst h hhash => exact hhash
    | fragment h => exact absurd rfl hout
    | _ => cases hlabel

/-- Behind a scheme, a path starts with a slash. -/
theorem path_head {url : Bytes} (hschema : urlPart .schema url ≠ []) :
    ∀ ch ∈ (urlPart .path url).head?, ch = '/'.toUInt8 := by
  cases url with
  | nil => exact absurd rfl hschema
  | cons c rest =>
    -- the first character belongs to the scheme
    have hfirst : parseUrlChar .reqSpacesBeforeUrl c = .reqSchema := by
      by_contra hne
      refine hschema ?_
      have hpast : fieldPhase .schema < urlPhase (parseUrlChar .reqSpacesBeforeUrl c) := by
        rcases parseUrlChar_step .reqSpacesBeforeUrl c with hdead | hstep
        · rw [hdead]
          decide
        · generalize parseUrlChar .reqSpacesBeforeUrl c = st' at hstep hne
          cases hstep with
          | schemaFirst h => exact absurd rfl hne
          | pathFirst h => decide
          | server hst | serverAt hst | serverPath hst | serverQuery hst =>
            rcases hst with h | h | h <;> cases h
          | query hst | queryFragment hst => rcases hst with h | h <;> cases h
      have hout : urlField (parseUrlChar .reqSpacesBeforeUrl c) ≠ some .schema := fun h =>
        Nat.ne_of_gt hpast ((urlField_iff _ _).mp h)
      rw [urlPart, readInto, if_neg hout]
      exact readInto_eq_nil_of_past urlPhase_le (fun st => (urlField_iff _ st).mp) hpast rest
    have hpart : urlPart .path (c :: rest) =
        readInto parseUrlChar urlField .path .reqSchema rest := by
      rw [urlPart, readInto, hfirst]
      exact if_neg (by decide)
    rw [hpart]
    refine readInto_head (I := fun st => 1 ≤ urlPhase st)
      (fun st ch h => Nat.le_trans h (urlPhase_le st ch)) ?_ (by decide) (by decide) rest
    intro st ch hst hout hlabel
    rcases parseUrlChar_step st ch with hdead | hstep
    · rw [hdead] at hlabel
      cases hlabel
    · generalize parseUrlChar st ch = st' at hstep hlabel
      cases hstep with
      | pathFirst h => exact absurd hst (by decide)
      | serverPath _ => rfl
      | path h => exact absurd rfl hout
      | _ => cases hlabel

theorem userinfo_chars {foundAt : Bool} {w : Bytes} :
    ∀ ch ∈ hostPart foundAt .userinfo w, isUserinfoChar ch = true := by
  refine hostPart_forall ?_
  intro s ch s' hstep hlabel
  cases hstep with
  | userinfo hs h => exact h
  | _ => cases hlabel

theorem host_chars {foundAt : Bool} {w : Bytes} : ∀ ch ∈ hostPart foundAt .host w,
    ch ≠ '['.toUInt8 ∧ ch ≠ '@'.toUInt8 ∧ ch ≠ '/'.toUInt8 := by
  have hhost : ∀ ch, isHostChar ch = true ∨ (isHex ch = true ∨ ch = ':'.toUInt8 ∨
      ch = '.'.toUInt8) ∨ ch = '%'.toUInt8 ∨ parseHostChar.zoneChar ch = true →
      ch ≠ '['.toUInt8 ∧ ch ≠ '@'.toUInt8 ∧ ch ≠ '/'.toUInt8 := by
    apply forall_byte
    decide +kernel
  refine hostPart_forall ?_
  intro s ch s' hstep hlabel
  cases hstep with
  | host hs h => exact hhost ch (.inl h)
  | v6 hs h => exact hhost ch (.inr (.inl h))
  | zoneStart => exact hhost _ (.inr (.inr (.inl rfl)))
  | zone hs h => exact hhost ch (.inr (.inr (.inr h)))
  | _ => cases hlabel

theorem wellFormed_ofUrl (hscheme : (ofUrl url).scheme ≠ []) (hhost : (ofUrl url).host ≠ []) :
    WellFormed (ofUrl url) where
  scheme_ne := hscheme
  scheme := schema_chars url
  userinfo := userinfo_chars
  host_ne := hhost
  host := host_chars
  path := by
    by_cases hpath : (ofUrl url).path = []
    · exact .inl hpath
    · right
      refine ⟨?_, path_chars url⟩
      obtain ⟨ch, rest, heq⟩ := List.exists_cons_of_ne_nil hpath
      have hschema : urlPart .schema url ≠ [] := hscheme
      have hhead := path_head hschema ch
      have hpart : urlPart .path url = ch :: rest := heq
      rw [hpart] at hhead
      rw [heq, List.head?_cons, hhead rfl]
  query := query_chars url
  fragment := fragment_chars url
  fragment_head := fragment_head url

end

/-! ## What is printed -/

/-- The port as it is printed. -/
def portDigits (u : URI) : Bytes := if u.isDefaultPort then [] else Http.decimal u.getPort.toNat

/-- The server part that `toString` prints. -/
def server (u : URI) : Bytes :=
  (if u.userinfo = [] then [] else u.userinfo ++ ascii "@") ++
    (u.host ++ Http.delimited (ascii ":") u.portDigits)

/-- What `toString` prints behind the server part. -/
def tail (u : URI) : Bytes :=
  u.getPath ++ (Http.delimited (ascii "?") u.query ++ Http.delimited (ascii "#") u.fragment)

section

variable {u : URI}

theorem toString_eq (u : URI) :
    u.toString = u.scheme ++ (ascii "://" ++ (u.server ++ u.tail)) := by
  have hne (n : Nat) : Http.decimal n ≠ [] := (Http.decimal_spec n).1
  unfold toString server tail portDigits Http.delimited
  by_cases huserinfo : u.userinfo = [] <;> by_cases hquery : u.query = [] <;>
    by_cases hfragment : u.fragment = [] <;> by_cases hport : u.isDefaultPort = true <;>
    simp [huserinfo, hquery, hfragment, hport, hne, List.append_assoc]

theorem scheme_spans (h : WellFormed u) :
    Spans parseUrlChar urlField .reqSpacesBeforeUrl u.scheme .reqSchema
      (only .schema u.scheme) := by
  have hstep : ∀ ch, isAlpha ch = true →
      parseUrlChar .reqSpacesBeforeUrl ch = .reqSchema ∧
        parseUrlChar .reqSchema ch = .reqSchema := by
    apply forall_byte
    decide +kernel
  exact .into h.scheme_ne (fun ch hch => hstep ch (h.scheme ch hch)) rfl

theorem slashes_spans :
    Spans parseUrlChar urlField .reqSchema (ascii "://") .reqServerStart fun _ => [] := by
  have hcolon : Spans parseUrlChar urlField .reqSchema [':'.toUInt8] .reqSchemaSlash fun _ => [] :=
    .skip (by decide) rfl
  have hslash : Spans parseUrlChar urlField .reqSchemaSlash ['/'.toUInt8] .reqSchemaSlashSlash
      fun _ => [] := .skip (by decide) rfl
  have hslashSlash : Spans parseUrlChar urlField .reqSchemaSlashSlash ['/'.toUInt8] .reqServerStart
      fun _ => [] := .skip (by decide) rfl
  exact (hcolon.append hslash).append hslashSlash

theorem isPath_getPath (h : WellFormed u) : Http.IsPath u.getPath := by
  unfold getPath
  split
  · decide
  · next hne => exact h.path.resolve_left hne

/-- Path, query and fragment come back from behind the server part. -/
theorem tail_spans (h : WellFormed u) : ∃ t, t ≠ .dead ∧
    Spans parseUrlChar urlField .reqServer u.tail t fun f =>
      only .path u.getPath f ++ (only .query u.query f ++ only .fragment u.fragment f) := by
  have hpath :
      Spans parseUrlChar urlField .reqServer u.getPath .reqPath (only .path u.getPath) := by
    obtain ⟨hhead, hchars⟩ := isPath_getPath h
    obtain ⟨rest, hrest⟩ := List.head?_eq_some_iff.mp hhead
    rw [hrest] at hchars ⊢
    exact .enter (by decide)
      (fun ch hch => Http.parseUrlChar_path (hchars ch (List.mem_cons_of_mem _ hch))) rfl
  -- the state behind the query
  obtain ⟨t, ht, hquery⟩ : ∃ t, (t = .reqPath ∨ t = .reqQueryString) ∧
      Spans parseUrlChar urlField .reqPath (Http.delimited (ascii "?") u.query) t
        (only .query u.query) := by
    unfold Http.delimited
    by_cases hnil : u.query = []
    · refine ⟨.reqPath, .inl rfl, ?_⟩
      rw [if_pos hnil, hnil]
      exact ⟨rfl, fun f => (ite_self _).symm⟩
    · refine ⟨.reqQueryString, .inr rfl, ?_⟩
      rw [if_neg hnil]
      have hmark : Spans parseUrlChar urlField .reqPath ['?'.toUInt8] .reqQueryStringStart
          fun _ => [] := .skip (by decide) rfl
      exact hmark.append (.into hnil (fun ch hch => Http.parseUrlChar_query (h.query ch hch)) rfl)
  obtain ⟨t', ht', hfragment⟩ : ∃ t', t' ≠ .dead ∧
      Spans parseUrlChar urlField t (Http.delimited (ascii "#") u.fragment) t'
        (only .fragment u.fragment) := by
    unfold Http.delimited
    have hhead := h.fragment_head
    have hchars := h.fragment
    cases hfrag : u.fragment with
    | nil =>
      refine ⟨t, ?_, ⟨rfl, fun f => (ite_self _).symm⟩⟩
      rcases ht with rfl | rfl <;> decide
    | cons ch rest =>
      rw [hfrag] at hhead hchars
      refine ⟨.reqFragment, by decide, ?_⟩
      have hmark : Spans parseUrlChar urlField t ['#'.toUInt8] .reqFragmentStart fun _ => [] := by
        refine .skip ?_ rfl
        rcases ht with rfl | rfl <;> decide
      have hne : ch ≠ '#'.toUInt8 := by simpa using hhead
      exact hmark.append (.enter
        ((Http.parseUrlChar_fragment (hchars ch List.mem_cons_self)).1 hne)
        (fun c hc => (Http.parseUrlChar_fragment (hchars c (List.mem_cons_of_mem _ hc))).2) rfl)
  exact ⟨t', ht', hpath.append (hquery.append hfragment)⟩

theorem portDigits_chars (u : URI) : ∀ ch ∈ u.portDigits, isNum ch = true := by
  unfold portDigits
  split
  · simp
  · exact (Http.decimal_spec _).2.1

/-- The host as it is printed, with the port. -/
def hostPort (u : URI) : Bytes := u.host ++ Http.delimited (ascii ":") u.portDigits

theorem hostPort_chars (u : URI) :
    ∀ ch ∈ u.hostPort, ch ∈ u.host ∨ ch = ':'.toUInt8 ∨ isNum ch = true := by
  intro ch hch
  rcases List.mem_append.mp hch with hch | hch
  · exact .inl hch
  · unfold Http.delimited at hch
    split at hch
    · cases hch
    · rcases List.mem_append.mp hch with hch | hch
      · exact .inr (.inl (List.mem_singleton.mp hch))
      · exact .inr (.inr (portDigits_chars u ch hch))

theorem hostPort_ne (h : WellFormed u) : u.hostPort ≠ [] :=
  List.append_ne_nil_of_left_ne_nil h.host_ne _

theorem server_eq (u : URI) :
    u.server = (if u.userinfo = [] then [] else u.userinfo ++ ascii "@") ++ u.hostPort := rfl

/-- The server part for the loop over the URL. -/
theorem server_spans (h : WellFormed u) (hhost : ∀ ch ∈ u.host, isHostChar ch = true) :
    Spans parseUrlChar urlField .reqServerStart u.server .reqServer (only .host u.server) := by
  have hstep : ∀ ch, isUserinfoChar ch = true ∨ isHostChar ch = true ∨ ch = ':'.toUInt8 ∨
      isNum ch = true → parseUrlChar .reqServerStart ch = .reqServer ∧
        parseUrlChar .reqServer ch = .reqServer ∧
          parseUrlChar .reqServerWithAt ch = .reqServer := by
    apply forall_byte
    decide +kernel
  have hname (ch : UInt8) (hch : ch ∈ u.hostPort) :=
    hstep ch (.inr ((hostPort_chars u ch hch).imp_left (hhost ch)))
  have hinfo (ch : UInt8) (hch : ch ∈ u.userinfo) := hstep ch (.inl (h.userinfo ch hch))
  rw [server_eq]
  by_cases hnil : u.userinfo = []
  · rw [if_pos hnil, List.nil_append]
    exact .into (hostPort_ne h) (fun ch hch => ⟨(hname ch hch).1, (hname ch hch).2.1⟩) rfl
  · rw [if_neg hnil]
    have hfirst : Spans parseUrlChar urlField .reqServerStart u.userinfo .reqServer
        (only .host u.userinfo) :=
      .into hnil (fun ch hch => ⟨(hinfo ch hch).1, (hinfo ch hch).2.1⟩) rfl
    have hmark : Spans parseUrlChar urlField .reqServer (ascii "@") .reqServerWithAt
        (only .host (ascii "@")) := .enter (by decide) (by simp) rfl
    have hlast : Spans parseUrlChar urlField .reqServerWithAt u.hostPort .reqServer
        (only .host u.hostPort) :=
      .into (hostPort_ne h) (fun ch hch => ⟨(hname ch hch).2.2, (hname ch hch).2.1⟩) rfl
    have hall := (hfirst.append hmark).append hlast
    simpa only [only_append] using hall

/-- The server part for the loop of `http_parse_host`. -/
theorem host_spans (h : WellFormed u) (hhost : ∀ ch ∈ u.host, isHostChar ch = true) :
    ∃ t : HostState, t.accepts ∧
      Spans parseHostChar hostLabel (hostStart (decide (u.userinfo ≠ []))) u.server t fun f =>
        only .userinfo u.userinfo f ++ (only .host u.host f ++ only .port u.portDigits f) := by
  have hname : ∀ ch, isHostChar ch = true →
      parseHostChar .hostStart ch = .host ∧ parseHostChar .host ch = .host := by
    apply forall_byte
    decide +kernel
  have hinfo : ∀ ch, isUserinfoChar ch = true →
      parseHostChar .userinfoStart ch = .userinfo ∧ parseHostChar .userinfo ch = .userinfo := by
    apply forall_byte
    decide +kernel
  have hnum : ∀ ch, isNum ch = true →
      parseHostChar .hostPortStart ch = .hostPort ∧ parseHostChar .hostPort ch = .hostPort := by
    apply forall_byte
    decide +kernel
  have hhostSpan : Spans parseHostChar hostLabel .hostStart u.host .host (only .host u.host) :=
    .into h.host_ne (fun ch hch => hname ch (hhost ch hch)) rfl
  -- with the port, if there is one
  obtain ⟨t, ht, hport⟩ : ∃ t : HostState, t.accepts ∧
      Spans parseHostChar hostLabel .host (Http.delimited (ascii ":") u.portDigits) t
        (only .port u.portDigits) := by
    unfold Http.delimited
    by_cases hnil : u.portDigits = []
    · refine ⟨.host, .inl rfl, ?_⟩
      rw [if_pos hnil, hnil]
      exact ⟨rfl, fun f => (ite_self _).symm⟩
    · refine ⟨.hostPort, .inr (.inr rfl), ?_⟩
      rw [if_neg hnil]
      have hcolon : Spans parseHostChar hostLabel .host [':'.toUInt8] .hostPortStart fun _ => [] :=
        .skip (by decide) rfl
      exact hcolon.append (.into hnil (fun ch hch => hnum ch (portDigits_chars u ch hch)) rfl)
  refine ⟨t, ht, ?_⟩
  unfold server
  by_cases hnil : u.userinfo = []
  · rw [if_pos hnil, hnil, decide_eq_false (not_not.mpr rfl), List.nil_append]
    have hall := hhostSpan.append hport
    refine ⟨hall.run, fun f => (hall.parts f).trans ?_⟩
    unfold only
    simp
  · rw [if_neg hnil, decide_eq_true hnil]
    have hfirst : Spans parseHostChar hostLabel .userinfoStart u.userinfo .userinfo
        (only .userinfo u.userinfo) :=
      .into hnil (fun ch hch => hinfo ch (h.userinfo ch hch)) rfl
    have hmark : Spans parseHostChar hostLabel .userinfo ['@'.toUInt8] .hostStart fun _ => [] :=
      .skip (by decide) rfl
    have hall := (hfirst.append hmark).append (hhostSpan.append hport)
    refine ⟨hall.run, fun f => (hall.parts f).trans ?_⟩
    rw [List.append_nil]

theorem at_mem_server (h : WellFormed u) : '@'.toUInt8 ∈ u.server ↔ u.userinfo ≠ [] := by
  have hno : '@'.toUInt8 ∉ u.hostPort := by
    intro hmem
    rcases hostPort_chars u _ hmem with hmem | hcolon | hnum
    · exact (h.host _ hmem).2.1 rfl
    · exact absurd hcolon (by decide)
    · exact absurd hnum (by decide)
  rw [server_eq, List.mem_append, or_iff_left hno]
  by_cases hnil : u.userinfo = []
  · simp [hnil]
  · rw [if_neg hnil]
    refine iff_of_true ?_ hnil
    exact List.mem_append_right _ (List.mem_singleton_self _)

/-- The fields as they are printed. -/
def printed (u : URI) : UrlField → Bytes
  | .schema => u.scheme
  | .userinfo => u.userinfo
  | .host => u.host
  | .port => u.portDigits
  | .path => u.getPath
  | .query => u.query
  | .fragment => u.fragment

theorem portValue_portDigits (u : URI) :
    portValue u.portDigits 0 = if u.isDefaultPort then 0 else u.getPort.toNat := by
  unfold portDigits
  split
  · rfl
  · exact (Http.decimal_spec _).2.2

/-- **What is printed is accepted, and its fields are those that were printed.** -/
theorem fields_toString (h : WellFormed u) (hhost : ∀ ch ∈ u.host, isHostChar ch = true) :
    Accepted u.toString ∧ ∀ f, fieldOf u.toString f = u.printed f := by
  obtain ⟨t, ht, htail⟩ := tail_spans h
  -- the printed text is put together from texts of which each is read into one field
  have hurl := (scheme_spans h).append (slashes_spans.append ((server_spans h hhost).append htail))
  rw [← toString_eq] at hurl
  have hserver : urlPart .host u.toString = u.server := by
    refine (hurl.parts .host).trans ?_
    simp [only]
  have hat : hasAt u.toString = decide (u.userinfo ≠ []) := by
    rw [hasAt, hserver]
    exact decide_eq_decide.mpr (at_mem_server h)
  -- the second automaton, on the server part
  obtain ⟨s, hs, hspan⟩ := host_spans h hhost
  have hinner (f : UrlField) : hostPart (hasAt u.toString) f (urlPart .host u.toString) =
      only .userinfo u.userinfo f ++ (only .host u.host f ++ only .port u.portDigits f) := by
    rw [hserver, hat]
    exact hspan.parts f
  have hfield : ∀ f, fieldOf u.toString f = u.printed f := by
    intro f
    cases f with
    | host => exact (hinner .host).trans (by simp [only, printed])
    | userinfo => exact (hinner .userinfo).trans (by simp [only, printed])
    | port => exact (hinner .port).trans (by simp [only, printed])
    | schema => exact (hurl.parts .schema).trans (by simp [only, printed])
    | path => exact (hurl.parts .path).trans (by simp [only, printed])
    | query => exact (hurl.parts .query).trans (by simp [only, printed])
    | fragment => exact (hurl.parts .fragment).trans (by simp [only, printed])
  refine ⟨?_, hfield⟩
  constructor
  case ne_nil =>
    rw [toString_eq]
    exact List.append_ne_nil_of_left_ne_nil h.scheme_ne _
  case live =>
    have hrun : urlRun u.toString = t := hurl.run
    rwa [hrun]
  case host =>
    intro _
    rw [hserver]
    exact List.append_ne_nil_of_right_ne_nil _ (hostPort_ne h)
  case accepts =>
    intro _
    rw [hserver, hat]
    have hrun : hostRun (decide (u.userinfo ≠ [])) u.server = s := hspan.run
    rwa [hrun]
  case port =>
    rw [hfield]
    show portValue u.portDigits 0 ≤ _
    rw [portValue_portDigits]
    have hlt := u.getPort.toNat_lt
    split <;> omega

/-! ## The round trip -/

/-- The two URIs say the same. -/
structure Same (u v : URI) : Prop where
  scheme : v.scheme = u.scheme
  userinfo : v.userinfo = u.userinfo
  host : v.host = u.host
  port : v.getPort = u.getPort
  path : v.getPath = u.getPath
  query : v.query = u.query
  fragment : v.fragment = u.fragment

theorem isDefaultPort_port (h : u.isDefaultPort = true) : u.getPort = defaultPort u.scheme := by
  unfold isDefaultPort at h
  unfold getPort defaultPort
  split_ifs at h ⊢ <;> simp_all

theorem getPort_eq_zero (h : u.getPort = 0) : u.getPort = defaultPort u.scheme := by
  unfold getPort at h ⊢
  split_ifs at h ⊢ with hport
  · exact absurd h hport
  · rfl

/-- Setting the port that is returned, and leaving out the default one, changes nothing. -/
theorem getPort_ofUrl (hfield : ∀ f, fieldOf u.toString f = u.printed f) :
    (ofUrl u.toString).getPort = u.getPort := by
  have hport : (ofUrl u.toString).port =
      if u.isDefaultPort then defaultPort u.scheme else u.getPort := by
    have hparsed : (ofUrl u.toString).port =
        if fieldOf u.toString .port ≠ [] then UInt16.ofNat (portValue (fieldOf u.toString .port) 0)
        else defaultPort (fieldOf u.toString .schema) := rfl
    have hdigits : u.printed .port = u.portDigits := rfl
    rw [hparsed, hfield .port, hfield .schema, hdigits, portValue_portDigits]
    unfold portDigits
    by_cases hdefault : u.isDefaultPort = true
    · simp [hdefault, printed]
    · simp [hdefault, (Http.decimal_spec u.getPort.toNat).1]
  have hscheme : (ofUrl u.toString).scheme = u.scheme := hfield .schema
  rw [getPort, hport, hscheme]
  by_cases hdefault : u.isDefaultPort = true
  · rw [if_pos hdefault, isDefaultPort_port hdefault, ite_self]
  · rw [if_neg hdefault]
    split
    · rfl
    · next hzero => rw [← getPort_eq_zero (not_not.mp hzero), not_not.mp hzero]

theorem same_toString (h : WellFormed u) (hhost : ∀ ch ∈ u.host, isHostChar ch = true) :
    Same u (ofUrl u.toString) := by
  obtain ⟨-, hfield⟩ := fields_toString h hhost
  constructor
  case scheme => exact hfield .schema
  case userinfo => exact hfield .userinfo
  case host => exact hfield .host
  case port => exact getPort_ofUrl hfield
  case path =>
    have hpath : (ofUrl u.toString).path = u.getPath := hfield .path
    have hne : u.getPath ≠ [] := by
      have hhead := (isPath_getPath h).1
      intro hnil
      rw [hnil] at hhead
      cases hhead
    rw [getPath, hpath, if_neg hne]
  case query => exact hfield .query
  case fragment => exact hfield .fragment

/-! ## Hosts in brackets -/

/-- The states between the brackets. -/
def inBrackets (s : HostState) : Prop :=
  s = .hostV6Start ∨ s = .hostV6 ∨ s = .hostV6ZoneStart ∨ s = .hostV6Zone

/-- Without a bracket, no step leads between them, and what is read into the host is a name. -/
theorem name_step {s s' : HostState} {ch : UInt8} (h : HostStep s ch s') (hch : ch ≠ '['.toUInt8)
    (hs : ¬ inBrackets s) :
    ¬ inBrackets s' ∧ (hostLabel s' = some .host → isHostChar ch = true) := by
  cases h with
  | bracket => exact absurd rfl hch
  | v6 hv6 _ => exact absurd (hv6.imp_right .inl) hs
  | zoneStart => exact absurd (.inr (.inl rfl)) hs
  | zone hzone _ => exact absurd (.inr (.inr hzone)) hs
  | host _ h => exact ⟨by simp [inBrackets], fun _ => h⟩
  | _ => exact ⟨by simp [inBrackets], by simp [hostLabel]⟩

theorem hostPart_name {foundAt : Bool} {w : Bytes} (hno : '['.toUInt8 ∉ w) :
    ∀ ch ∈ hostPart foundAt .host w, isHostChar ch = true := by
  have hstep (s : HostState) (ch : UInt8) (hch : ch ∈ w) (hs : ¬ inBrackets s) :
      ¬ inBrackets (parseHostChar s ch) ∧
        (hostLabel (parseHostChar s ch) = some .host → isHostChar ch = true) := by
    rcases parseHostChar_step s ch with hdead | hstep
    · rw [hdead]
      exact ⟨by simp [inBrackets], by simp [hostLabel]⟩
    · refine name_step hstep ?_ hs
      rintro rfl
      exact hno hch
  have hstart : ¬ inBrackets (hostStart foundAt) := by
    cases foundAt <;> simp [inBrackets, hostStart]
  exact readInto_forall (I := fun s => ¬ inBrackets s) (fun s ch hch hs => (hstep s ch hch hs).1)
    (fun s ch hch hs => (hstep s ch hch hs).2) hstart

theorem bracket_not_mem_server (h : WellFormed u) : '['.toUInt8 ∉ u.server := by
  intro hmem
  rw [server_eq] at hmem
  rcases List.mem_append.mp hmem with hmem | hmem
  · split at hmem
    · cases hmem
    · rcases List.mem_append.mp hmem with hmem | hmem
      · exact absurd (h.userinfo _ hmem) (by decide)
      · exact absurd (List.mem_singleton.mp hmem) (by decide)
  · rcases hostPort_chars u _ hmem with hmem | hcolon | hnum
    · exact (h.host _ hmem).1 rfl
    · exact absurd hcolon (by decide)
    · exact absurd hnum (by decide)

/-- A slash ends the server part. -/
theorem slash_ends {st : State} (hst : 4 ≤ urlPhase st) :
    fieldPhase .host < urlPhase (parseUrlChar st '/'.toUInt8) := by
  cases st <;> revert hst <;> decide

/-- No bracket is read into the server part of what is printed. -/
theorem bracket_not_mem_host (h : WellFormed u) : '['.toUInt8 ∉ urlPart .host u.toString := by
  have hfront := (scheme_spans h).append slashes_spans
  have hpart : urlPart .host u.toString =
      readInto parseUrlChar urlField .host .reqServerStart u.server ++
        readInto parseUrlChar urlField .host (u.server.foldl parseUrlChar .reqServerStart)
          u.tail := by
    rw [toString_eq, ← List.append_assoc, urlPart, readInto_append, hfront.run, hfront.parts,
      ← readInto_append]
    rfl
  -- the path starts with a slash
  have htail : readInto parseUrlChar urlField .host
      (u.server.foldl parseUrlChar .reqServerStart) u.tail = [] := by
    obtain ⟨rest, hrest⟩ := List.head?_eq_some_iff.mp (isPath_getPath h).1
    have hphase := le_phase_foldl urlPhase_le .reqServerStart u.server
    have hends := slash_ends hphase
    unfold tail
    rw [hrest, List.cons_append, readInto, if_neg]
    · exact readInto_eq_nil_of_past urlPhase_le (fun st => (urlField_iff _ st).mp) hends _
    · rw [urlField_iff]
      exact Nat.ne_of_gt hends
  rw [hpart, htail, List.append_nil]
  have hserver : ∀ ch ∈ readInto parseUrlChar urlField .host .reqServerStart u.server,
      ch ∈ u.server :=
    readInto_forall (I := fun _ => True) (fun _ _ _ _ => trivial) (fun _ _ hch _ _ => hch) trivial
  exact fun hmem => bracket_not_mem_server h (hserver _ hmem)

/-- A URI comes back from the text that is printed if and only if its host is a name: the brackets
of an address are not printed. -/
theorem comes_back_iff {url : Bytes} (hurl : Splits url) (hcreate : create url = some u)
    (hscheme : u.scheme ≠ []) (hhost : u.host ≠ []) (hprinted : Splits u.toString) :
    (∃ v, create u.toString = some v ∧ Same u v) ↔ ∀ ch ∈ u.host, isHostChar ch = true := by
  have hwell : WellFormed u := by
    obtain ⟨hnone, hsome⟩ := create_eq hurl
    by_cases haccepted : Accepted url
    · have hu : ofUrl url = u := Option.some.inj ((hsome haccepted).symm.trans hcreate)
      subst hu
      exact wellFormed_ofUrl hscheme hhost
    · rw [hnone haccepted] at hcreate
      cases hcreate
  obtain ⟨hnone, hsome⟩ := create_eq hprinted
  constructor
  · rintro ⟨v, hv, hsame⟩
    have haccepted : Accepted u.toString := by
      by_contra hno
      rw [hnone hno] at hv
      cases hv
    have hv : ofUrl u.toString = v := Option.some.inj ((hsome haccepted).symm.trans hv)
    rw [← hsame.host, ← hv]
    exact hostPart_name (bracket_not_mem_host hwell)
  · intro hname
    exact ⟨_, hsome (fields_toString hwell hname).1, same_toString hwell hname⟩

theorem comes_back_port : ∃ u, create (ascii "http://a:b@host.com:81/p?q=s") = some u ∧
    ∃ v, create u.toString = some v ∧ Same u v := by
  have hcreate : create (ascii "http://a:b@host.com:81/p?q=s") = some
      { scheme := ascii "http", userinfo := ascii "a:b", host := ascii "host.com", port := 81
        path := ascii "/p", query := ascii "q=s" } := by
    decide +kernel
  exact ⟨_, hcreate, (comes_back_iff (parseUrl_splits (by decide +kernel)) hcreate (by decide)
    (by decide) (parseUrl_splits (by decide +kernel))).mpr (by decide +kernel)⟩

/-- The host of `http://[::1]/x` is printed without its brackets. -/
theorem brackets_lost : ∃ u, create (ascii "http://[::1]/x") = some u ∧ u.scheme ≠ [] ∧
    u.host ≠ [] ∧ create u.toString = none :=
  ⟨{ scheme := ascii "http", host := ascii "::1", path := ascii "/x", port := 80 },
    by decide +kernel, by decide, by decide, by decide +kernel⟩

end

end URI

end Luwu
