import Luwu.Lib.Interact
import Luwu.Lib.Text
import Luwu.Net.Address

/-!
# Looking up a host

`Address::Lookup` cuts the host string into a node and a service and asks `getaddrinfo` for them.
-/

namespace Luwu.Address

open Lib Lib.StdString

/-- What `getaddrinfo` is asked; the other hints are zero.  No service is the null pointer. -/
structure Query where
  node : Bytes
  service : Option Bytes
  family : Int
  type : Int
  protocol : Int

/-- The node between the brackets, and where the service starts. -/
def cutBrackets (host : Bytes) : Bytes × Option Nat :=
  if host.head? = some '['.toUInt8 then
    match strchr host ']'.toUInt8 with
    | some endipv6 =>
      (substr host 1 (endipv6 - 1),
        if host[endipv6 + 1]? = some ':'.toUInt8 then some (endipv6 + 2) else none)
    | none => ([], none)
  else ([], none)

/-- The node in front of the colon, and where the service starts. -/
def cutColon (host : Bytes) : Bytes × Option Nat :=
  match find host ':'.toUInt8 0 with
  | some service =>
    if strchr (host.drop (service + 1)) ':'.toUInt8 = none then
      (substr host 0 service, some (service + 1))
    else ([], some service)
  | none => ([], none)

/-- The node, and where the service starts. -/
def cut (host : Bytes) : Bytes × Option Nat :=
  let ipv6 := cutBrackets host
  let ipv4 := if ipv6.1 = [] then cutColon host else ipv6
  (if ipv4.1 = [] then host else ipv4.1, ipv4.2)

/-- `Lookup`.  The code calls out to `getaddrinfo`, which fails or returns a list of addresses. -/
def lookup (host : Bytes) (family type protocol : Int) :
    InterM Query (Except Int (List (Option Memory))) Empty (List (Option Address)) Bool := do
  let (node, service) := cut host
  let result ← InterM.ask fun _ =>
    { node := cstr node
      service := service.map fun i => cstr (host.drop i)
      family, type, protocol }
  match result with
  | .error _ => pure false
  | .ok addrs =>
    InterM.modify (· ++ addrs.map create)
    InterM.gets fun results => !results.isEmpty

/-! ## What is asked -/

/-- The node and the service of a host, as C strings. -/
def asked (host : Bytes) : Bytes × Option Bytes :=
  (cstr (cut host).1, (cut host).2.map fun i => cstr (host.drop i))

theorem lookup_follow (host : Bytes) (family type protocol : Int) (results : List (Option Address))
    (answer : Except Int (List (Option Memory))) :
    ((lookup host family type protocol results).follow answer).1 =
      [{ node := (asked host).1, service := (asked host).2, family, type, protocol }] := by
  cases answer <;> rfl

/-- The host starts with `[x]`. -/
structure Bracketed (host x y : Bytes) : Prop where
  eq : host = '['.toUInt8 :: (x ++ ']'.toUInt8 :: y)
  ne_nil : x ≠ []
  no_bracket : ']'.toUInt8 ∉ x

section

variable {host x y a s : Bytes}

theorem Bracketed.inj {x' y' : Bytes} (h : Bracketed host x y) (h' : Bracketed host x' y') :
    x = x' ∧ y = y' := by
  have heq : x ++ ']'.toUInt8 :: y = x' ++ ']'.toUInt8 :: y' :=
    (List.cons.inj (h.eq.symm.trans h'.eq)).2
  have hlen : x.length = x'.length := by
    have hfind := findIdx?_append_cons (r := y) h.no_bracket
    rw [heq, findIdx?_append_cons h'.no_bracket] at hfind
    exact (Option.some.inj hfind).symm
  obtain ⟨hx, hy⟩ := List.append_inj heq hlen
  exact ⟨hx, (List.cons.inj hy).2⟩

/-- The text behind the opening bracket. -/
theorem Bracketed.substr (h : Bracketed host x y) : substr host 1 x.length = x := by
  have hstr : host = ['['.toUInt8] ++ (x ++ ']'.toUInt8 :: y) := h.eq
  exact substr_append hstr

theorem cutBrackets_eq (h : Bracketed host x y) (hzero : 0 ∉ x) :
    cutBrackets host = (x, if y.head? = some ':'.toUInt8 then some (x.length + 3) else none) := by
  have hcstr : cstr host = ('['.toUInt8 :: x) ++ ']'.toUInt8 :: cstr y := by
    have hfront : (0 : UInt8) ∉ '['.toUInt8 :: x :=
      List.not_mem_cons_of_ne_of_not_mem (by decide) hzero
    rw [h.eq]
    exact cstr_append hfront (']'.toUInt8 :: y)
  have hclose : strchr host ']'.toUInt8 = some (x.length + 1) := by
    rw [strchr, hcstr]
    exact findIdx?_append_cons (List.not_mem_cons_of_ne_of_not_mem (by decide) h.no_bracket)
  have hnext : host[x.length + 1 + 1]? = y.head? := by
    rw [h.eq, List.getElem?_cons_succ, List.getElem?_append_right (Nat.le_succ _)]
    cases y <;> simp
  have hhead : host.head? = some '['.toUInt8 := by rw [h.eq, List.head?_cons]
  rw [cutBrackets, if_pos hhead, hclose]
  dsimp only
  rw [hnext, Nat.add_sub_cancel, h.substr]

theorem cutBrackets_nil (h : ∀ x y, Bracketed host x y → 0 ∈ x) : (cutBrackets host).1 = [] := by
  unfold cutBrackets
  split
  · next hhead =>
    split
    · next i hi =>
      -- the text up to the bracket
      obtain ⟨front, r, hcstr, hfront⟩ : ∃ front r, cstr host = front ++ ']'.toUInt8 :: r ∧
          ']'.toUInt8 ∉ front := by
        refine List.eq_append_cons_of_mem ?_
        by_contra hno
        rw [strchr_eq_none.mpr hno] at hi
        cases hi
      obtain ⟨z, hz⟩ := cstr_prefix host
      rw [hcstr, List.append_assoc] at hz
      have hlen : i = front.length := by
        rw [strchr, hcstr, findIdx?_append_cons hfront] at hi
        exact (Option.some.inj hi).symm
      cases front with
      | nil =>
        rw [hz] at hhead
        have hc : ']'.toUInt8 = '['.toUInt8 := Option.some.inj hhead
        exact absurd hc (by decide)
      | cons c x =>
        have hc : c = '['.toUInt8 := by
          rw [hz] at hhead
          exact Option.some.inj hhead
        subst hc
        have hx : x = [] := by
          by_contra hne
          refine zero_not_mem_cstr host ?_
          rw [hcstr]
          refine List.mem_append_left _ (List.mem_cons_of_mem _ ?_)
          exact h x (r ++ z) ⟨hz, hne, fun hmem => hfront (List.mem_cons_of_mem _ hmem)⟩
        rw [hlen, hx]
        rfl
    · rfl
  · rfl

theorem cutColon_none (h : ':'.toUInt8 ∉ host) : cutColon host = ([], none) := by
  have hstr : host = [] ++ host := rfl
  have hfind : find host ':'.toUInt8 0 = none := find_none hstr h
  rw [cutColon, hfind]

theorem cutColon_some (h : host = a ++ ':'.toUInt8 :: s) (ha : ':'.toUInt8 ∉ a) :
    cutColon host = if ':'.toUInt8 ∉ cstr s then (a, some (a.length + 1))
      else ([], some a.length) := by
  have hstr : host = [] ++ (a ++ ':'.toUInt8 :: s) := h
  have hfind : find host ':'.toUInt8 0 = some a.length := by
    have hfind := find_some hstr ha
    rwa [List.length_nil, Nat.zero_add] at hfind
  have hnode : substr host 0 a.length = a := substr_append hstr
  have hbehind : host.drop (a.length + 1) = s := by
    rw [h, List.drop_append]
    simp
  rw [cutColon, hfind]
  dsimp only
  rw [hbehind, hnode]
  simp only [strchr_eq_none]

theorem asked_bracketed (h : Bracketed host x y) (hzero : 0 ∉ x) :
    asked host = (x, if y.head? = some ':'.toUInt8 then some (cstr y.tail) else none) := by
  have hbehind : host.drop (x.length + 3) = y.tail := by
    rw [h.eq, List.drop_succ_cons, List.drop_append, ← List.drop_one]
    simp
  rw [asked, cut, cutBrackets_eq h hzero]
  dsimp only
  rw [if_neg h.ne_nil, if_neg h.ne_nil, cstr_eq_self hzero]
  split
  · rw [Option.map_some, hbehind]
  · rfl

theorem cut_plain (h : ∀ x y, Bracketed host x y → 0 ∈ x) :
    cut host =
      (if (cutColon host).1 = [] then host else (cutColon host).1, (cutColon host).2) := by
  unfold cut
  dsimp only
  rw [cutBrackets_nil h, if_pos rfl]

theorem asked_plain (h : ∀ x y, Bracketed host x y → 0 ∈ x) (hcolon : ':'.toUInt8 ∉ host) :
    asked host = (cstr host, none) := by
  rw [asked, cut_plain h, cutColon_none hcolon]
  rfl

theorem asked_colon (h : ∀ x y, Bracketed host x y → 0 ∈ x) (hhost : host = a ++ ':'.toUInt8 :: s)
    (ha : ':'.toUInt8 ∉ a) (hs : ':'.toUInt8 ∉ cstr s) :
    asked host = (cstr (if a = [] then host else a), some (cstr s)) := by
  have hbehind : host.drop (a.length + 1) = s := by
    rw [hhost, List.drop_append]
    simp
  rw [asked, cut_plain h, cutColon_some hhost ha, if_pos hs]
  dsimp only
  rw [Option.map_some, hbehind]

theorem asked_colons (h : ∀ x y, Bracketed host x y → 0 ∈ x)
    (hhost : host = a ++ ':'.toUInt8 :: s) (ha : ':'.toUInt8 ∉ a) (hs : ':'.toUInt8 ∈ cstr s) :
    asked host = (cstr host, some (':'.toUInt8 :: cstr s)) := by
  have hat : host.drop a.length = ':'.toUInt8 :: s := by rw [hhost, List.drop_left]
  rw [asked, cut_plain h, cutColon_some hhost ha, if_neg (not_not.mpr hs)]
  dsimp only
  rw [if_pos rfl, Option.map_some, hat]
  rfl

/-- A text does not go on with itself behind another character. -/
theorem eq_of_shift {p r r' : Bytes} {c d : UInt8} (h : p ++ c :: r = d :: (p ++ r')) : c = d := by
  induction p generalizing d with
  | nil => exact (List.cons.inj h).1
  | cons e p ih =>
    obtain ⟨rfl, htail⟩ := List.cons.inj h
    exact ih htail

/-- Without the bracket in front, a node is neither the host nor its part before a colon. -/
theorem node_ne {t p r : Bytes} (hhost : host = '['.toUInt8 :: (p ++ r))
    (ht : t = host ∨ ∃ s, host = t ++ ':'.toUInt8 :: s) : cstr t ≠ p := by
  intro heq
  rcases cstr_split t with hsplit | ⟨z, hsplit⟩
  · rw [heq] at hsplit
    subst hsplit
    rcases ht with rfl | ⟨s, ht⟩
    · have hlen := congrArg List.length hhost
      rw [List.length_cons, List.length_append] at hlen
      omega
    · exact absurd (eq_of_shift (ht.symm.trans hhost)) (by decide)
  · rw [heq] at hsplit
    -- behind the node, the host has a zero
    obtain ⟨z', hz⟩ : ∃ z', host = p ++ 0 :: z' := by
      rcases ht with rfl | ⟨s, ht⟩
      · exact ⟨z, hsplit⟩
      · refine ⟨z ++ ':'.toUInt8 :: s, ?_⟩
        rw [ht, hsplit, List.append_assoc, List.cons_append]
    exact absurd (eq_of_shift (hz.symm.trans hhost)) (by decide)

/-! ## What is meant -/

/-- The host is `[x]` or `[x]:s`. -/
def InBrackets (host : Bytes) : Prop :=
  ∃ x y, Bracketed host x y ∧ (y = [] ∨ y.head? = some ':'.toUInt8)

/-- The host has one colon, behind `a` and in front of `s`. -/
structure OneColon (host a s : Bytes) : Prop where
  eq : host = a ++ ':'.toUInt8 :: s
  ne_nil : a ≠ []
  first : ':'.toUInt8 ∉ a
  last : ':'.toUInt8 ∉ s

theorem OneColon.count (h : OneColon host a s) : host.count ':'.toUInt8 = 1 := by
  rw [h.eq, List.count_append, List.count_cons_self, List.count_eq_zero.mpr h.first,
    List.count_eq_zero.mpr h.last]

/-- The node and the service that a host names. -/
inductive Names (host : Bytes) : Bytes → Option Bytes → Prop
  | bracketsService {x s : Bytes} (h : Bracketed host x (':'.toUInt8 :: s)) :
      Names host x (some s)
  | brackets {x : Bytes} (h : Bracketed host x []) : Names host x none
  | service {a s : Bytes} (hno : ¬ InBrackets host) (h : OneColon host a s) : Names host a (some s)
  | host (hno : ¬ InBrackets host) (hone : ∀ a s, ¬ OneColon host a s) : Names host host none

variable {node : Bytes} {service : Option Bytes}

/-- Outside brackets, the node is the host or its part before a colon. -/
theorem Names.node_cases (h : Names host node service) (hno : ¬ InBrackets host) :
    node = host ∨ ∃ s, host = node ++ ':'.toUInt8 :: s := by
  cases h with
  | bracketsService h => exact absurd ⟨_, _, h, .inr rfl⟩ hno
  | brackets h => exact absurd ⟨_, _, h, .inl rfl⟩ hno
  | service _ h => exact .inr ⟨_, h.eq⟩
  | host => exact .inl rfl

theorem Names.node_eq (h : Names host node service) (hbrackets : Bracketed host x y)
    (hy : y = [] ∨ y.head? = some ':'.toUInt8) : node = x := by
  cases h with
  | bracketsService h => exact (h.inj hbrackets).1
  | brackets h => exact (h.inj hbrackets).1
  | service hno _ => exact absurd ⟨_, _, hbrackets, hy⟩ hno
  | host hno _ => exact absurd ⟨_, _, hbrackets, hy⟩ hno

/-- The host is cut where it should be: it is `[x]` or `[x]:s` without a zero in `x`, or it has at
most one colon, not in front, and what is in brackets is not taken for a node or meant as one. -/
def CutRight (host : Bytes) : Prop :=
  (∃ x y, Bracketed host x y ∧ 0 ∉ x ∧ (y = [] ∨ y.head? = some ':'.toUInt8)) ∨
    ((∀ x y, Bracketed host x y → 0 ∈ x ∧ y ≠ [] ∧ y.head? ≠ some ':'.toUInt8) ∧
      host.count ':'.toUInt8 ≤ 1 ∧ host.head? ≠ some ':'.toUInt8)

/-- What is asked when nothing in brackets is taken for the node. -/
theorem asked_cases (h : ∀ x y, Bracketed host x y → 0 ∈ x) :
    ∃ t, (asked host).1 = cstr t ∧ (t = host ∨ ∃ s, host = t ++ ':'.toUInt8 :: s) := by
  by_cases hcolon : ':'.toUInt8 ∈ host
  · obtain ⟨a, s, hhost, ha⟩ := List.eq_append_cons_of_mem hcolon
    by_cases hs : ':'.toUInt8 ∈ cstr s
    · rw [asked_colons h hhost ha hs]
      exact ⟨host, rfl, .inl rfl⟩
    · rw [asked_colon h hhost ha hs]
      refine ⟨_, rfl, ?_⟩
      split
      · exact .inl rfl
      · exact .inr ⟨s, hhost⟩
  · rw [asked_plain h hcolon]
    exact ⟨host, rfl, .inl rfl⟩

theorem cutRight_of_names (hnames : Names host node service)
    (hasked : asked host = (cstr node, service.map cstr)) : CutRight host := by
  by_cases hcode : ∃ x y, Bracketed host x y ∧ 0 ∉ x
  · obtain ⟨x, y, hbrackets, hzero⟩ := hcode
    left
    refine ⟨x, y, hbrackets, hzero, ?_⟩
    by_contra hy
    have hno : ¬ InBrackets host := by
      rintro ⟨x', y', h', hy'⟩
      obtain ⟨-, rfl⟩ := hbrackets.inj h'
      exact hy hy'
    rw [asked_bracketed hbrackets hzero] at hasked
    exact node_ne hbrackets.eq (hnames.node_cases hno) (Prod.mk.inj hasked).1.symm
  · have hplain : ∀ x y, Bracketed host x y → 0 ∈ x := fun x y h =>
      not_not.mp fun hzero => hcode ⟨x, y, h, hzero⟩
    have hno : ¬ InBrackets host := by
      rintro ⟨x, y, hbrackets, hy⟩
      obtain ⟨t, hnode, ht⟩ := asked_cases hplain
      rw [hasked, hnames.node_eq hbrackets hy] at hnode
      -- the node ends at the zero between the brackets
      obtain ⟨z, hz⟩ := cstr_prefix x
      refine node_ne (r := z ++ ']'.toUInt8 :: y) ?_ ht hnode.symm
      rw [← List.append_assoc, ← hz]
      exact hbrackets.eq
    right
    refine ⟨fun x y h => ⟨hplain x y h, not_or.mp fun hy => hno ⟨x, y, h, hy⟩⟩, ?_⟩
    by_cases hcolon : ':'.toUInt8 ∈ host
    · -- a service is asked for, and so one is meant
      have hservice : (asked host).2 ≠ none := by
        obtain ⟨a, s, hhost, ha⟩ := List.eq_append_cons_of_mem hcolon
        by_cases hs : ':'.toUInt8 ∈ cstr s
        · rw [asked_colons hplain hhost ha hs]
          simp
        · rw [asked_colon hplain hhost ha hs]
          simp
      rw [hasked] at hservice
      cases hnames with
      | bracketsService h => exact absurd ⟨_, _, h, .inr rfl⟩ hno
      | brackets h => exact absurd ⟨_, _, h, .inl rfl⟩ hno
      | host => exact absurd rfl hservice
      | service _ h =>
        refine ⟨Nat.le_of_eq h.count, ?_⟩
        obtain ⟨hhost, hne, hfirst, -⟩ := h
        obtain ⟨c, a', rfl⟩ := List.exists_cons_of_ne_nil hne
        rw [hhost]
        rintro ⟨⟩
        exact hfirst List.mem_cons_self
    · rw [List.count_eq_zero.mpr hcolon]
      refine ⟨Nat.zero_le 1, fun hhead => hcolon (List.mem_of_mem_head? ?_)⟩
      exact hhead

theorem names_of_cutRight (h : CutRight host) :
    ∃ node service, Names host node service ∧ asked host = (cstr node, service.map cstr) := by
  rcases h with ⟨x, y, hbrackets, hzero, hy⟩ | ⟨hbrackets, hcount, hhead⟩
  · have hasked := asked_bracketed hbrackets hzero
    rcases hy with rfl | hy
    · refine ⟨x, none, .brackets hbrackets, ?_⟩
      rw [hasked, cstr_eq_self hzero]
      rfl
    · obtain ⟨s, rfl⟩ := List.head?_eq_some_iff.mp hy
      refine ⟨x, some s, .bracketsService hbrackets, ?_⟩
      rw [hasked, if_pos hy, cstr_eq_self hzero]
      rfl
  · have hplain : ∀ x y, Bracketed host x y → 0 ∈ x := fun x y h => (hbrackets x y h).1
    have hno : ¬ InBrackets host := by
      rintro ⟨x, y, h, hy⟩
      exact not_or.mpr (hbrackets x y h).2 hy
    -- there is one colon at most, and not in front
    by_cases hcolon : ':'.toUInt8 ∈ host
    · obtain ⟨a, s, hhost, ha⟩ := List.eq_append_cons_of_mem hcolon
      have hs : ':'.toUInt8 ∉ s := by
        rw [hhost, List.count_append, List.count_cons_self] at hcount
        exact List.count_eq_zero.mp (by omega)
      have hne : a ≠ [] := by
        rintro rfl
        exact hhead (by rw [hhost]; rfl)
      have hcstr : ':'.toUInt8 ∉ cstr s := fun hmem => hs ((List.takeWhile_sublist _).subset hmem)
      refine ⟨a, some s, .service hno ⟨hhost, hne, ha, hs⟩, ?_⟩
      rw [asked_colon hplain hhost ha hcstr, if_neg hne]
      rfl
    · refine ⟨host, none, .host hno fun a s h => hcolon ?_, asked_plain hplain hcolon⟩
      rw [h.eq]
      simp

/-- `Lookup` asks for the node and the service that the host names if and only if it cuts the host
right: the pointer to the first colon stays set in front of a node that is the whole host, and
what is behind the closing bracket is not looked at. -/
theorem lookup_asks_iff (host : Bytes) (family type protocol : Int)
    (results : List (Option Address)) (answer : Except Int (List (Option Memory))) :
    (∃ node service, Names host node service ∧
      ((lookup host family type protocol results).follow answer).1 =
        [{ node := cstr node, service := service.map cstr, family, type, protocol }]) ↔
      CutRight host := by
  rw [lookup_follow]
  constructor
  · rintro ⟨node, service, hnames, hasked⟩
    have hquery := (List.cons.inj hasked).1
    refine cutRight_of_names hnames (Prod.ext ?_ ?_)
    · exact congrArg Query.node hquery
    · exact congrArg Query.service hquery
  · intro h
    obtain ⟨node, service, hnames, hasked⟩ := names_of_cutRight h
    exact ⟨node, service, hnames, by rw [hasked]⟩

/-- For `::1`, the service that is asked for is the whole host. -/
theorem lookup_keeps_colon : Names (ascii "::1") (ascii "::1") none ∧
    ((lookup (ascii "::1") 2 0 0 []).follow (.error 0)).1.map Query.service =
      [some (ascii "::1")] := by
  refine ⟨.host ?_ ?_, by decide⟩
  · rintro ⟨x, y, h, -⟩
    exact absurd (List.cons.inj h.eq).1 (by decide)
  · intro a s h
    exact absurd h.count (by decide)

end

end Luwu.Address
