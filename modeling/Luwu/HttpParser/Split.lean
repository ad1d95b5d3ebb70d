import Luwu.HttpParser.HostLoop

/-!
# The fields of a URL

The URLs that `http_parser_parse_url` accepts, and the text of their fields.
-/

namespace Luwu.HttpParser

open Lib

/-- The number that digits stand for, behind those of `v`. -/
def portValue (digits : Bytes) (v : Nat) : Nat :=
  digits.foldl (fun v ch => v * 10 + (ch.toNat - 48)) v

theorem le_portValue (digits : Bytes) (v : Nat) : v ≤ portValue digits v := by
  induction digits generalizing v with
  | nil => exact Nat.le_refl v
  | cons ch digits ih =>
    have hle := ih (v * 10 + (ch.toNat - 48))
    show v ≤ portValue digits (v * 10 + (ch.toNat - 48))
    omega

theorem parsePort_eq (digits : Bytes) {v : Nat} (hv : v ≤ 0xffff) :
    parsePort digits v =
      if portValue digits v ≤ 0xffff then some (portValue digits v) else none := by
  induction digits generalizing v with
  | nil => exact (if_pos hv).symm
  | cons ch digits ih =>
    rw [parsePort]
    by_cases hnext : v * 10 + (ch.toNat - 48) ≤ 0xffff
    · rw [if_neg (Nat.not_lt.mpr hnext), ih hnext]
      rfl
    · have hle := le_portValue digits (v * 10 + (ch.toNat - 48))
      rw [if_pos (Nat.lt_of_not_le hnext), if_neg]
      show ¬ portValue digits (v * 10 + (ch.toNat - 48)) ≤ 0xffff
      omega

/-- The server part has an `@`. -/
def hasAt (url : Bytes) : Bool := decide ('@'.toUInt8 ∈ urlPart .host url)

/-- The text of a field. -/
def fieldOf (url : Bytes) (f : UrlField) : Bytes :=
  match f with
  | .host => hostPart (hasAt url) .host (urlPart .host url)
  | .userinfo => hostPart (hasAt url) .userinfo (urlPart .host url)
  | .port => hostPart (hasAt url) .port (urlPart .host url)
  | f => urlPart f url

/-- The URLs that are accepted, of those that are not a target of `CONNECT`. -/
structure Accepted (url : Bytes) : Prop where
  ne_nil : url ≠ []
  live : urlRun url ≠ .dead
  host : urlPart .schema url ≠ [] → urlPart .host url ≠ []
  accepts : urlPart .host url ≠ [] → (hostRun (hasAt url) (urlPart .host url)).accepts
  port : portValue (fieldOf url .port) 0 ≤ 0xffff

/-- What is known of an accepted URL. -/
structure SplitInto (url : Bytes) (u : Url) : Prop where
  field : ∀ f, u.field url f = fieldOf url f
  marked : ∀ f, f ≠ .host → (u.fieldSet f = true ↔ fieldOf url f ≠ [])
  host : u.fieldSet .host = true ↔ urlPart .host url ≠ []

/-- `http_parser_parse_url` accepts the URL if its fields can be told apart, and finds these. -/
structure Splits (url : Bytes) : Prop where
  rejects : ¬ Accepted url → parseUrl url false = none
  accepts : Accepted url → ∃ u, parseUrl url false = some u ∧ SplitInto url u

section

variable {url : Bytes}

theorem urlPart_inHost {f : UrlField} (hf : f = .userinfo ∨ f = .port) : urlPart f url = [] := by
  by_contra hne
  have hle := le_phase_of_readInto urlPhase_le (fun st => (urlField_iff f st).mp) hne
  have hlast : ∀ st, urlPhase st ≤ 11 := fun st => by cases st <;> decide
  have hphase := hlast (url.foldl parseUrlChar .reqSpacesBeforeUrl)
  have hfield : fieldPhase f = 12 := by
    rcases hf with rfl | rfl <;> rfl
  omega

/-- What the two loops leave. -/
theorem splitInto_of_noted {old : Option UrlField} {foundAt : Bool} {u u' : Url}
    (h : UrlNoted url url old foundAt u) (hat : foundAt = hasAt url)
    (hhost : HostNoted url (u.off .host) foundAt u (urlPart .host url) u') : SplitInto url u' := by
  subst hat
  have hsame (f : UrlField) (hf : ¬ f.inHost) : u'.field url f = urlPart f url := by
    obtain ⟨hoff, hlen⟩ := hhost.others f hf
    rw [Url.field, hoff, hlen]
    exact (h.noted f).data
  -- the host loop writes its three fields and keeps the others
  constructor
  case field =>
    intro f
    cases f with
    | host => exact (hhost.noted _ (.inl rfl)).data
    | userinfo => exact (hhost.noted _ (.inr (.inl rfl))).data
    | port => exact (hhost.noted _ (.inr (.inr rfl))).data
    | schema => exact hsame _ (by simp [UrlField.inHost])
    | path => exact hsame _ (by simp [UrlField.inHost])
    | query => exact hsame _ (by simp [UrlField.inHost])
    | fragment => exact hsame _ (by simp [UrlField.inHost])
  case marked =>
    intro f hf
    cases f with
    | host => exact absurd rfl hf
    | userinfo => exact hhost.marked _ (.inl rfl)
    | port => exact hhost.marked _ (.inr rfl)
    | schema => rw [hhost.kept _ (by decide) (by decide)]; exact h.marked _
    | path => rw [hhost.kept _ (by decide) (by decide)]; exact h.marked _
    | query => rw [hhost.kept _ (by decide) (by decide)]; exact h.marked _
    | fragment => rw [hhost.kept _ (by decide) (by decide)]; exact h.marked _
  case host =>
    rw [hhost.kept _ (by decide) (by decide)]
    exact h.marked _

/-- Without a server part there is nothing to split. -/
theorem splitInto_of_no_host {old : Option UrlField} {foundAt : Bool} {u : Url}
    (h : UrlNoted url url old foundAt u) (hnone : urlPart .host url = []) : SplitInto url u := by
  have hempty (f : UrlField) : hostPart (hasAt url) f (urlPart .host url) = [] := by
    rw [hnone]
    rfl
  have hdata (f : UrlField) : u.field url f = urlPart f url := (h.noted f).data
  constructor
  case field =>
    intro f
    rw [hdata]
    cases f with
    | host => exact hnone.trans (hempty _).symm
    | userinfo => exact (urlPart_inHost (.inl rfl)).trans (hempty _).symm
    | port => exact (urlPart_inHost (.inr rfl)).trans (hempty _).symm
    | _ => rfl
  case marked =>
    intro f hf
    rw [h.marked]
    cases f with
    | host => exact absurd rfl hf
    | userinfo => rw [urlPart_inHost (.inl rfl)]; exact not_congr (iff_of_true rfl (hempty _))
    | port => rw [urlPart_inHost (.inr rfl)]; exact not_congr (iff_of_true rfl (hempty _))
    | _ => rfl
  case host => exact h.marked _

theorem Splits.of_rejected (hparse : parseUrl url false = none) (hno : ¬ Accepted url) :
    Splits url :=
  ⟨fun _ => hparse, fun h => absurd h hno⟩

theorem Splits.of_accepted {u : Url} (hparse : parseUrl url false = some u)
    (hsplit : SplitInto url u) (h : Accepted url) : Splits url :=
  ⟨fun hno => absurd h hno, fun _ => ⟨u, hparse, hsplit⟩⟩

section

variable {old : Option UrlField} {foundAt : Bool} {u : Url}

theorem UrlNoted.fieldSet_eq_false (h : UrlNoted url url old foundAt u) {f : UrlField}
    (hf : urlPart f url = []) : u.fieldSet f = false := by
  rw [← Bool.not_eq_true, h.marked, hf]
  exact not_not.mpr rfl

/-- A URL without a server part, of which the loop has left `u`. -/
theorem splits_of_no_server (hnil : url ≠ []) (hrun : urlRun url ≠ .dead)
    (hloop : parseUrlLoop url 0 .reqSpacesBeforeUrl none false {} = some (u, foundAt))
    (h : UrlNoted url url old foundAt u) (hhost : urlPart .host url = []) : Splits url := by
  have hhostSet := h.fieldSet_eq_false hhost
  have hlen : url.length ≠ 0 := mt List.length_eq_zero_iff.mp hnil
  by_cases hschema : urlPart .schema url = []
  · have hschemaSet := h.fieldSet_eq_false hschema
    have hportSet := h.fieldSet_eq_false (urlPart_inHost (.inr rfl))
    have hport : fieldOf url .port = [] := by
      show hostPart _ _ (urlPart .host url) = []
      rw [hhost]
      rfl
    refine .of_accepted (u := u) ?_ (splitInto_of_no_host h hhost) ?_
    · rw [parseUrl, if_neg hlen]
      simp [hloop, hhostSet, hschemaSet, hportSet]
    · exact ⟨hnil, hrun, fun hne => absurd hschema hne, fun hne => absurd hhost hne,
        by rw [hport]; decide⟩
  · refine .of_rejected ?_ fun h => h.host hschema hhost
    rw [parseUrl, if_neg hlen]
    simp [hloop, hhostSet, (h.marked .schema).mpr hschema]

/-- A URL with a server part. -/
theorem splits_of_server (hnil : url ≠ []) (hfit : url.length < 2 ^ 16)
    (hrun : urlRun url ≠ .dead)
    (hloop : parseUrlLoop url 0 .reqSpacesBeforeUrl none false {} = some (u, foundAt))
    (h : UrlNoted url url old foundAt u) (hhost : urlPart .host url ≠ []) : Splits url := by
  have hhostSet : u.fieldSet .host = true := (h.marked .host).mpr hhost
  have hat : foundAt = hasAt url := by
    rw [Bool.eq_iff_iff, h.at_iff, hasAt, decide_eq_true_iff]
  have hlen : url.length ≠ 0 := mt List.length_eq_zero_iff.mp hnil
  have hfresh : ∀ f, f = .userinfo ∨ f = .port → u.len f = 0 ∧ u.fieldSet f = false := by
    intro f hf
    have hnone : urlPart f url = [] := urlPart_inHost hf
    exact ⟨(h.noted f).len.trans (congrArg List.length hnone), h.fieldSet_eq_false hnone⟩
  obtain ⟨hreject, haccept⟩ := parseHost_eq hfit u foundAt (h.noted .host).len (h.noted .host).data
    hfresh
  by_cases haccepts : (hostRun foundAt (urlPart .host url)).accepts
  · obtain ⟨u', hparse, hnoted⟩ := haccept haccepts
    have hsplit := splitInto_of_noted h hat hnoted
    have hparse : parseHost url u foundAt = some u' := hparse
    have hresult : parseUrl url false = if u'.fieldSet .port then
        (parsePort (u'.field url .port) 0).map fun v => { u' with port := v } else some u' := by
      rw [parseUrl, if_neg hlen]
      simp [hloop, hhostSet, hparse]
    by_cases hrange : portValue (fieldOf url .port) 0 ≤ 0xffff
    · have haccepted : Accepted url :=
        ⟨hnil, hrun, fun _ => hhost, fun _ => hat ▸ haccepts, hrange⟩
      rw [hsplit.field, parsePort_eq _ (by decide), if_pos hrange] at hresult
      -- with a port its value is noted as well
      split at hresult
      · exact .of_accepted hresult ⟨hsplit.field, hsplit.marked, hsplit.host⟩ haccepted
      · exact .of_accepted hresult hsplit haccepted
    · have hport : u'.fieldSet .port = true := by
        refine (hsplit.marked .port (by decide)).mpr fun hnone => hrange ?_
        rw [hnone]
        decide
      rw [if_pos hport, hsplit.field, parsePort_eq _ (by decide), if_neg hrange] at hresult
      exact .of_rejected hresult fun h => hrange h.port
  · have hparse : parseHost url u foundAt = none := hreject haccepts
    refine .of_rejected ?_ fun h => haccepts (hat ▸ h.accepts hhost)
    rw [parseUrl, if_neg hlen]
    simp [hloop, hhostSet, hparse]

end

/-- **`http_parser_parse_url` splits each URL that its offsets can address.** -/
theorem parseUrl_splits (hfit : url.length < 2 ^ 16) : Splits url := by
  by_cases hnil : url = []
  · subst hnil
    exact .of_rejected rfl fun h => h.ne_nil rfl
  obtain ⟨hdead, hlive⟩ := parseUrlLoop_eq hfit url (show url = [] ++ url from rfl)
    (by decide) (urlNoted_nil url)
  by_cases hrun : urlRun url = .dead
  · have hloop : parseUrlLoop url 0 .reqSpacesBeforeUrl none false {} = none := hdead hrun
    refine .of_rejected ?_ fun h => h.live hrun
    rw [parseUrl, if_neg (mt List.length_eq_zero_iff.mp hnil)]
    simp [hloop]
  · obtain ⟨u, old, foundAt, hloop, hnoted⟩ := hlive hrun
    by_cases hhost : urlPart .host url = []
    · exact splits_of_no_server hnil hrun hloop hnoted hhost
    · exact splits_of_server hnil hfit hrun hloop hnoted hhost

end

end Luwu.HttpParser
