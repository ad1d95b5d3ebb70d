import Mathlib.Logic.Function.Basic
import Luwu.HttpParser.Basic

/-!
# The bundled http_parser: URLs

`parse_url_char` checks a URL one character at a time; `http_parser_execute` uses it on the request
line, and `http_parser_parse_url` uses it to split a URL into its fields.  Offsets and lengths of
the fields are 16 bits wide.
-/

namespace Luwu.HttpParser

/-- `parse_url_char`. -/
def parseUrlChar (s : State) (ch : UInt8) : State :=
  if ch = SP ∨ ch = CR ∨ ch = LF then .dead
  else if ch = HT ∨ ch = 12 then .dead
  else match s with
    | .reqSpacesBeforeUrl =>
      if ch = '/'.toUInt8 ∨ ch = '*'.toUInt8 then .reqPath
      else if isAlpha ch then .reqSchema
      else .dead
    | .reqSchema =>
      if isAlpha ch then .reqSchema
      else if ch = ':'.toUInt8 then .reqSchemaSlash
      else .dead
    | .reqSchemaSlash => if ch = '/'.toUInt8 then .reqSchemaSlashSlash else .dead
    | .reqSchemaSlashSlash => if ch = '/'.toUInt8 then .reqServerStart else .dead
    | .reqServerWithAt => if ch = '@'.toUInt8 then .dead else server ch
    | .reqServerStart | .reqServer => server ch
    | .reqPath =>
      if isUrlChar ch then .reqPath
      else if ch = '?'.toUInt8 then .reqQueryStringStart
      else if ch = '#'.toUInt8 then .reqFragmentStart
      else .dead
    | .reqQueryStringStart | .reqQueryString =>
      if isUrlChar ch then .reqQueryString
      else if ch = '?'.toUInt8 then .reqQueryString
      else if ch = '#'.toUInt8 then .reqFragmentStart
      else .dead
    | .reqFragmentStart =>
      if isUrlChar ch then .reqFragment
      else if ch = '?'.toUInt8 then .reqFragment
      else if ch = '#'.toUInt8 then .reqFragmentStart
      else .dead
    | .reqFragment =>
      if isUrlChar ch then .reqFragment
      else if ch = '?'.toUInt8 ∨ ch = '#'.toUInt8 then .reqFragment
      else .dead
    | _ => .dead
where
  /-- The cases of the server part, which `s_req_server_with_at` falls through to. -/
  server (ch : UInt8) : State :=
    if ch = '/'.toUInt8 then .reqPath
    else if ch = '?'.toUInt8 then .reqQueryStringStart
    else if ch = '@'.toUInt8 then .reqServerWithAt
    else if isUserinfoChar ch ∨ ch = '['.toUInt8 ∨ ch = ']'.toUInt8 then .reqServer
    else .dead

/-- The states in which the server part is read. -/
def State.isServer (st : State) : Prop :=
  st = .reqServerStart ∨ st = .reqServer ∨ st = .reqServerWithAt

/-- The steps of `parse_url_char` that go on. -/
inductive UrlStep : State → UInt8 → State → Prop
  | schemaFirst {ch : UInt8} (h : isAlpha ch = true) : UrlStep .reqSpacesBeforeUrl ch .reqSchema
  | pathFirst {ch : UInt8} (h : ch = '/'.toUInt8 ∨ ch = '*'.toUInt8) :
      UrlStep .reqSpacesBeforeUrl ch .reqPath
  | schema {ch : UInt8} (h : isAlpha ch = true) : UrlStep .reqSchema ch .reqSchema
  | colon : UrlStep .reqSchema ':'.toUInt8 .reqSchemaSlash
  | slash : UrlStep .reqSchemaSlash '/'.toUInt8 .reqSchemaSlashSlash
  | slashSlash : UrlStep .reqSchemaSlashSlash '/'.toUInt8 .reqServerStart
  | server {st : State} {ch : UInt8} (hst : st.isServer)
      (h : isUserinfoChar ch = true ∨ ch = '['.toUInt8 ∨ ch = ']'.toUInt8)
      (hat : ch ≠ '@'.toUInt8) :
      UrlStep st ch .reqServer
  | serverAt {st : State} (hst : st.isServer) : UrlStep st '@'.toUInt8 .reqServerWithAt
  | serverPath {st : State} (hst : st.isServer) : UrlStep st '/'.toUInt8 .reqPath
  | serverQuery {st : State} (hst : st.isServer) : UrlStep st '?'.toUInt8 .reqQueryStringStart
  | path {ch : UInt8} (h : isUrlChar ch = true) : UrlStep .reqPath ch .reqPath
  | pathQuery : UrlStep .reqPath '?'.toUInt8 .reqQueryStringStart
  | pathFragment : UrlStep .reqPath '#'.toUInt8 .reqFragmentStart
  | query {st : State} {ch : UInt8} (hst : st = .reqQueryStringStart ∨ st = .reqQueryString)
      (h : isUrlChar ch = true ∨ ch = '?'.toUInt8) : UrlStep st ch .reqQueryString
  | queryFragment {st : State} (hst : st = .reqQueryStringStart ∨ st = .reqQueryString) :
      UrlStep st '#'.toUInt8 .reqFragmentStart
  | fragmentFirst {ch : UInt8} (h : isUrlChar ch = true ∨ ch = '?'.toUInt8)
      (hhash : ch ≠ '#'.toUInt8) : UrlStep .reqFragmentStart ch .reqFragment
  | hash : UrlStep .reqFragmentStart '#'.toUInt8 .reqFragmentStart
  | fragment {ch : UInt8} (h : isUrlChar ch = true ∨ ch = '?'.toUInt8 ∨ ch = '#'.toUInt8) :
      UrlStep .reqFragment ch .reqFragment

theorem server_step {st : State} (hst : st.isServer) (ch : UInt8) :
    parseUrlChar.server ch = .dead ∨ UrlStep st ch (parseUrlChar.server ch) := by
  unfold parseUrlChar.server
  split
  · next h => exact .inr (h ▸ .serverPath hst)
  · split
    · next h => exact .inr (h ▸ .serverQuery hst)
    · split
      · next h => exact .inr (h ▸ .serverAt hst)
      · next hat =>
        split
        · next h => exact .inr (.server hst h hat)
        · exact .inl rfl

theorem query_step {st : State} (hst : st = .reqQueryStringStart ∨ st = .reqQueryString)
    (ch : UInt8) :
    let st' : State := if isUrlChar ch then .reqQueryString
      else if ch = '?'.toUInt8 then .reqQueryString
      else if ch = '#'.toUInt8 then .reqFragmentStart
      else .dead
    st' = .dead ∨ UrlStep st ch st' := by
  dsimp only
  split
  · next h => exact .inr (.query hst (.inl h))
  · split
    · next h => exact .inr (.query hst (.inr h))
    · split
      · next h => exact .inr (h ▸ .queryFragment hst)
      · exact .inl rfl

/-- **What `parse_url_char` can do.** -/
theorem parseUrlChar_step (st : State) (ch : UInt8) :
    parseUrlChar st ch = .dead ∨ UrlStep st ch (parseUrlChar st ch) := by
  unfold parseUrlChar
  split
  · exact .inl rfl
  · split
    · exact .inl rfl
    · split
      · split
        · next h => exact .inr (.pathFirst h)
        · split
          · next h => exact .inr (.schemaFirst h)
          · exact .inl rfl
      · split
        · next h => exact .inr (.schema h)
        · split
          · next h => exact .inr (h ▸ .colon)
          · exact .inl rfl
      · split
        · next h => exact .inr (h ▸ .slash)
        · exact .inl rfl
      · split
        · next h => exact .inr (h ▸ .slashSlash)
        · exact .inl rfl
      -- the server part; behind an `@` a second one is refused
      · split
        · exact .inl rfl
        · exact server_step (.inr (.inr rfl)) ch
      · exact server_step (.inl rfl) ch
      · exact server_step (.inr (.inl rfl)) ch
      · split
        · next h => exact .inr (.path h)
        · split
          · next h => exact .inr (h ▸ .pathQuery)
          · split
            · next h => exact .inr (h ▸ .pathFragment)
            · exact .inl rfl
      · exact query_step (.inl rfl) ch
      · exact query_step (.inr rfl) ch
      · split
        · next h => exact .inr (.fragmentFirst (.inl h) (by rintro rfl; revert h; decide))
        · split
          · next h => exact .inr (.fragmentFirst (.inr h) (by rintro rfl; revert h; decide))
          · split
            · next h => exact .inr (h ▸ .hash)
            · exact .inl rfl
      · split
        · next h => exact .inr (.fragment (.inl h))
        · split
          · next h => exact .inr (.fragment (.inr h))
          · exact .inl rfl
      · exact .inl rfl

/-- `enum http_parser_url_fields`. -/
inductive UrlField where
  | schema | host | port | path | query | fragment | userinfo
deriving DecidableEq, Repr

/-- `struct http_parser_url`. -/
structure Url where
  fieldSet : UrlField → Bool := fun _ => false
  port : Nat := 0
  off : UrlField → Nat := fun _ => 0
  len : UrlField → Nat := fun _ => 0

namespace Url

/-- `field_data[f].off = (uint16_t) (p - buf)`. -/
def setOff (u : Url) (f : UrlField) (n : Nat) : Url :=
  { u with off := Function.update u.off f (n % 2 ^ 16) }

def setLen (u : Url) (f : UrlField) (n : Nat) : Url :=
  { u with len := Function.update u.len f (n % 2 ^ 16) }

/-- `field_data[f].len++`. -/
def incLen (u : Url) (f : UrlField) : Url := u.setLen f (u.len f + 1)

/-- `field_set |= (1 << f)`. -/
def mark (u : Url) (f : UrlField) : Url := { u with fieldSet := Function.update u.fieldSet f true }

/-- `std::string (buf + off, len)` of a field. -/
def field (u : Url) (buf : Bytes) (f : UrlField) : Bytes := (buf.drop (u.off f)).take (u.len f)

end Url

/-- `enum http_host_state`. -/
inductive HostState where
  | dead | userinfoStart | userinfo | hostStart | hostV6Start | host | hostV6 | hostV6End
  | hostV6ZoneStart | hostV6Zone | hostPortStart | hostPort
deriving DecidableEq, Repr

/-- `http_parse_host_char`. -/
def parseHostChar (s : HostState) (ch : UInt8) : HostState :=
  match s with
  | .userinfo | .userinfoStart =>
    if ch = '@'.toUInt8 then .hostStart
    else if isUserinfoChar ch then .userinfo
    else .dead
  | .hostStart =>
    if ch = '['.toUInt8 then .hostV6Start
    else if isHostChar ch then .host
    else .dead
  | .host =>
    if isHostChar ch then .host
    else if ch = ':'.toUInt8 then .hostPortStart
    else .dead
  | .hostV6End => if ch = ':'.toUInt8 then .hostPortStart else .dead
  | .hostV6 =>
    if ch = ']'.toUInt8 then .hostV6End
    else if isHex ch ∨ ch = ':'.toUInt8 ∨ ch = '.'.toUInt8 then .hostV6
    else if ch = '%'.toUInt8 then .hostV6ZoneStart
    else .dead
  | .hostV6Start => if isHex ch ∨ ch = ':'.toUInt8 ∨ ch = '.'.toUInt8 then .hostV6 else .dead
  | .hostV6Zone =>
    if ch = ']'.toUInt8 then .hostV6End
    else if zoneChar ch then .hostV6Zone
    else .dead
  | .hostV6ZoneStart => if zoneChar ch then .hostV6Zone else .dead
  | .hostPort | .hostPortStart => if isNum ch then .hostPort else .dead
  | .dead => .dead
where
  zoneChar (ch : UInt8) : Bool := isAlphanum ch || (ascii "%.-_~").contains ch

/-- What the switch of `http_parse_host` records of the character at offset `i`. -/
def hostField (u : Url) (s s' : HostState) (i : Nat) : Url :=
  match s' with
  | .host => (if s ≠ .host then u.setOff .host i else u).incLen .host
  | .hostV6 => (if s ≠ .hostV6 then u.setOff .host i else u).incLen .host
  | .hostV6ZoneStart | .hostV6Zone => u.incLen .host
  | .hostPort =>
    (if s ≠ .hostPort then ((u.setOff .port i).setLen .port 0).mark .port else u).incLen .port
  | .userinfo =>
    (if s ≠ .userinfo then ((u.setOff .userinfo i).setLen .userinfo 0).mark .userinfo
      else u).incLen .userinfo
  | _ => u

/-- The loop of `http_parse_host`. -/
def parseHostLoop : Bytes → Nat → HostState → Url → Option (HostState × Url)
  | [], _, s, u => some (s, u)
  | ch :: rest, i, s, u =>
    let s' := parseHostChar s ch
    if s' = .dead then none else parseHostLoop rest (i + 1) s' (hostField u s s' i)

/-- `http_parse_host`; `none` is the result 1. -/
def parseHost (buf : Bytes) (u : Url) (foundAt : Bool) : Option Url :=
  let host := u.field buf .host
  let start : HostState := if foundAt then .userinfoStart else .hostStart
  match parseHostLoop host (u.off .host) start (u.setLen .host 0) with
  | none => none
  | some (s, u') =>
    match s with
    | .hostStart | .hostV6Start | .hostV6 | .hostV6ZoneStart | .hostV6Zone | .hostPortStart
    | .userinfo | .userinfoStart => none
    | _ => some u'

/-- The field a URL state belongs to: `none` for a delimiter. -/
def urlField : State → Option UrlField
  | .reqSchema => some .schema
  | .reqServerWithAt | .reqServer => some .host
  | .reqPath => some .path
  | .reqQueryString => some .query
  | .reqFragment => some .fragment
  | _ => none

/-- The loop of `http_parser_parse_url`, from offset `i` on: the fields and `found_at`. -/
def parseUrlLoop : Bytes → Nat → State → Option UrlField → Bool → Url → Option (Url × Bool)
  | [], _, _, _, foundAt, u => some (u, foundAt)
  | ch :: rest, i, s, oldUf, foundAt, u =>
    let s' := parseUrlChar s ch
    let foundAt := foundAt || s' = .reqServerWithAt
    if s' = .dead then none
    else match urlField s' with
      | none => parseUrlLoop rest (i + 1) s' oldUf foundAt u
      | some uf =>
        if some uf = oldUf then parseUrlLoop rest (i + 1) s' oldUf foundAt (u.incLen uf)
        else
          parseUrlLoop rest (i + 1) s' (some uf) foundAt (((u.setOff uf i).setLen uf 1).mark uf)

/-- The value of the port; `none` when it passes `0xffff`. -/
def parsePort : Bytes → Nat → Option Nat
  | [], v => some v
  | ch :: rest, v =>
    let v' := v * 10 + (ch.toNat - 48)
    if v' > 0xffff then none else parsePort rest v'

/-- `http_parser_parse_url`; `none` is the result 1. -/
def parseUrl (buf : Bytes) (isConnect : Bool) : Option Url :=
  if buf.length = 0 then none
  else
    let s : State := if isConnect then .reqServerStart else .reqSpacesBeforeUrl
    match parseUrlLoop buf 0 s none false {} with
    | none => none
    | some (u, foundAt) =>
      if u.fieldSet .schema ∧ !u.fieldSet .host then none
      else match (if u.fieldSet .host then parseHost buf u foundAt else some u) with
        | none => none
        | some u =>
          if isConnect ∧ !onlyHostPort u then none
          else if u.fieldSet .port then
            (parsePort (u.field buf .port) 0).map fun v => { u with port := v }
          else some u
where
  /-- `field_set == ((1 << UF_HOST) | (1 << UF_PORT))`. -/
  onlyHostPort (u : Url) : Bool :=
    u.fieldSet .host && u.fieldSet .port && !u.fieldSet .schema && !u.fieldSet .path &&
      !u.fieldSet .query && !u.fieldSet .fragment && !u.fieldSet .userinfo

@[simp] theorem parseUrl_nil (isConnect : Bool) : parseUrl [] isConnect = none := rfl

end Luwu.HttpParser
