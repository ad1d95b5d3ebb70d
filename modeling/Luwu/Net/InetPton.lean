import Mathlib.Data.List.Basic
import Luwu.Lib.Bytes

/-!
# IPv6 literals

`inet_pton` scans the text once: it keeps the bytes of the groups read so far, the place of the
`::`, and the group that it is reading.  `Literal` is the grammar of the text, without the form that
ends in a dotted quad.
-/

namespace Luwu.Inet

def colon : UInt8 := ':'.toUInt8

/-- The value of a hexadecimal digit. -/
def hexDigitValue (c : UInt8) : Option Nat :=
  if '0'.toUInt8 ≤ c ∧ c ≤ '9'.toUInt8 then some (c - '0'.toUInt8).toNat
  else if 'a'.toUInt8 ≤ c ∧ c ≤ 'f'.toUInt8 then some ((c - 'a'.toUInt8).toNat + 10)
  else if 'A'.toUInt8 ≤ c ∧ c ≤ 'F'.toUInt8 then some ((c - 'A'.toUInt8).toNat + 10)
  else none

/-- A decimal number up to 255, without leading zeros. -/
def octet (s : Bytes) : Option UInt8 :=
  let value := s.foldl (fun v c => 10 * v + (c - '0'.toUInt8).toNat) 0
  if s ≠ [] ∧ (∀ c ∈ s, '0'.toUInt8 ≤ c ∧ c ≤ '9'.toUInt8) ∧
      (s.head? = some '0'.toUInt8 → s.length = 1) ∧ value ≤ 255 then
    some (.ofNat value)
  else none

/-- `inet_pton (AF_INET, ..)`. -/
def inetPton4 (src : Bytes) : Option Bytes := do
  let octets ← (src.splitOn '.'.toUInt8).mapM octet
  if octets.length = 4 then some octets else none

/-- The two bytes of a group, in network order. -/
def groupBytes (group : Nat) : Bytes := [.ofNat (group / 256), .ofNat group]

/-- The state of the scan. -/
structure Scan where
  dst : Bytes
  colonp : Option Nat
  xdigitsSeen : Nat
  val : Nat

/-- The loop over the text; `curtok` is where the group began. -/
def scan : Scan → Bytes → Bytes → Option Scan
  | s, _, [] => some s
  | s, curtok, ch :: src =>
    match hexDigitValue ch with
    | some digit =>
      -- a group has at most four digits
      if s.xdigitsSeen = 4 then none
      else scan { s with val := 16 * s.val + digit, xdigitsSeen := s.xdigitsSeen + 1 } curtok src
    | none =>
      if ch = colon then
        if s.xdigitsSeen = 0 then
          -- two colons; there is no second pair
          if s.colonp.isSome then none
          else scan { s with colonp := some s.dst.length } src src
        -- a single colon does not end the text
        else if src = [] then none
        else if 16 < s.dst.length + 2 then none
        else scan ⟨s.dst ++ groupBytes s.val, s.colonp, 0, 0⟩ src src
      else if ch = '.'.toUInt8 ∧ s.dst.length + 4 ≤ 16 then
        (inetPton4 curtok).map fun quad => ⟨s.dst ++ quad, s.colonp, 0, s.val⟩
      else none

/-- The group that ends with the text. -/
def lastGroup (s : Scan) : Option Bytes :=
  if 0 < s.xdigitsSeen then
    if 16 < s.dst.length + 2 then none else some (s.dst ++ groupBytes s.val)
  else some s.dst

/-- Zeros for the `::`. -/
def expand (colonp : Option Nat) (dst : Bytes) : Option Bytes :=
  match colonp with
  | some p =>
    if dst.length = 16 then none
    else some (dst.take p ++ List.replicate (16 - dst.length) 0 ++ dst.drop p)
  | none => if dst.length = 16 then some dst else none

/-- A `::` in front loses its first colon. -/
def leading (src : Bytes) : Option Bytes :=
  if src.head? = some colon then if src[1]? = some colon then some (src.drop 1) else none
  else if src = [] then none
  else some src

/-- `inet_pton (AF_INET6, ..)`. -/
def inetPton6 (src : Bytes) : Option Bytes := do
  let src ← leading src
  let s ← scan ⟨[], none, 0, 0⟩ src src
  let dst ← lastGroup s
  expand s.colonp dst

/-! ## The grammar -/

/-- One to four hexadecimal digits. -/
structure IsGroup (text : Bytes) (group : Nat) : Prop where
  ne_nil : text ≠ []
  length_le : text.length ≤ 4
  value : text.foldlM (fun v c => (hexDigitValue c).map (16 * v + ·)) 0 = some group

/-- Groups with colons between them. -/
def joined (texts : List Bytes) : Bytes := [colon].intercalate texts

/-- The texts of eight groups: all of them, or some at the front and some at the end, with a `::`
for the others, which are zero. -/
inductive Literal : Bytes → List Nat → Prop
  | full {texts : List Bytes} {groups : List Nat} (htexts : List.Forall₂ IsGroup texts groups)
      (hlen : groups.length = 8) : Literal (joined texts) groups
  | compressed {front back : List Bytes} {pre post : List Nat} {zeros : Nat}
      (hfront : List.Forall₂ IsGroup front pre) (hback : List.Forall₂ IsGroup back post)
      (hzeros : 0 < zeros) (hlen : pre.length + zeros + post.length = 8) :
      Literal (joined front ++ [colon, colon] ++ joined back)
        (pre ++ List.replicate zeros 0 ++ post)

/-- How many `::` a text has. -/
def doubleColons : Bytes → Nat
  | [] => 0
  | c :: s => (if c = colon ∧ s.head? = some colon then 1 else 0) + doubleColons s

theorem hexDigitValue_colon : hexDigitValue colon = none := by decide

variable {s : Scan} {curtok text rest : Bytes} {texts front back : List Bytes}
  {group : Nat} {groups pre post : List Nat}

@[simp] theorem joined_nil : joined [] = [] := rfl

@[simp] theorem joined_singleton : joined [text] = text := List.append_nil text

theorem joined_cons (h : texts ≠ []) :
    joined (text :: texts) = text ++ colon :: joined texts := by
  obtain ⟨next, texts, rfl⟩ := List.exists_cons_of_ne_nil h
  rw [joined, List.intercalate_cons_cons, List.append_assoc]
  rfl

theorem joined_ne_nil (htexts : List.Forall₂ IsGroup texts groups) (h : texts ≠ []) :
    joined texts ≠ [] := by
  cases htexts with
  | nil => exact absurd rfl h
  | @cons text _ texts _ htext _ =>
    by_cases hlast : texts = []
    · rw [hlast, joined_singleton]
      exact htext.ne_nil
    · rw [joined_cons hlast]
      exact List.append_ne_nil_of_left_ne_nil htext.ne_nil _

/-- A digit that the grammar has read is one. -/
theorem exists_digit {c : UInt8} {v : Nat}
    (h : (c :: text).foldlM (fun v c => (hexDigitValue c).map (16 * v + ·)) v = some group) :
    ∃ digit, hexDigitValue c = some digit ∧
      text.foldlM (fun v c => (hexDigitValue c).map (16 * v + ·)) (16 * v + digit) =
        some group := by
  cases hdigit : hexDigitValue c with
  | none =>
    rw [List.foldlM_cons, hdigit] at h
    cases h
  | some digit =>
    rw [List.foldlM_cons, hdigit] at h
    exact ⟨digit, rfl, h⟩

/-- A group holds no colon. -/
theorem IsGroup.ne_colon (h : IsGroup text group) : ∀ c ∈ text, c ≠ colon := by
  obtain ⟨-, -, hvalue⟩ := h
  generalize 0 = v at hvalue
  induction text generalizing v with
  | nil => exact List.forall_mem_nil _
  | cons c text ih =>
    obtain ⟨digit, hdigit, htext⟩ := exists_digit hvalue
    refine List.forall_mem_cons.mpr ⟨?_, ih _ htext⟩
    rintro rfl
    rw [hexDigitValue_colon] at hdigit
    cases hdigit

/-! ## The scan -/

/-- The digits of a group are read into `val`. -/
theorem scan_digits {v : Nat} (hlen : s.xdigitsSeen + text.length ≤ 4)
    (hval : text.foldlM (fun v c => (hexDigitValue c).map (16 * v + ·)) s.val = some v) :
    scan s curtok (text ++ rest) =
      scan { s with val := v, xdigitsSeen := s.xdigitsSeen + text.length } curtok rest := by
  induction text generalizing s with
  | nil =>
    obtain rfl : s.val = v := Option.some.inj hval
    rfl
  | cons c text ih =>
    obtain ⟨digit, hdigit, htext⟩ := exists_digit hval
    rw [List.length_cons] at hlen
    rw [List.cons_append, scan, hdigit]
    simp only [if_neg (show s.xdigitsSeen ≠ 4 by omega)]
    rw [ih (by show s.xdigitsSeen + 1 + text.length ≤ 4; omega) htext]
    simp only [List.length_cons, Nat.add_assoc, Nat.add_comm 1]

theorem scan_group {dst : Bytes} {colonp : Option Nat} (h : IsGroup text group) :
    scan ⟨dst, colonp, 0, 0⟩ curtok (text ++ rest) =
      scan ⟨dst, colonp, text.length, group⟩ curtok rest := by
  rw [scan_digits (by rw [Nat.zero_add]; exact h.length_le) h.value, Nat.zero_add]

/-- A colon behind a group stores it. -/
theorem scan_colon {dst : Bytes} {colonp : Option Nat} (h : IsGroup text group) (hrest : rest ≠ [])
    (hroom : dst.length + 2 ≤ 16) :
    scan ⟨dst, colonp, 0, 0⟩ curtok (text ++ colon :: rest) =
      scan ⟨dst ++ groupBytes group, colonp, 0, 0⟩ rest rest := by
  have hseen : text.length ≠ 0 := mt List.length_eq_zero_iff.mp h.ne_nil
  rw [scan_group h, scan, hexDigitValue_colon]
  simp only [if_true, if_neg hseen, if_neg hrest, if_neg (Nat.not_lt.mpr hroom)]

/-- A colon behind a colon is the place of the zeros. -/
theorem scan_double {dst : Bytes} :
    scan ⟨dst, none, 0, 0⟩ curtok (colon :: rest) =
      scan ⟨dst, some dst.length, 0, 0⟩ rest rest := by
  rw [scan, hexDigitValue_colon]
  simp only [if_true, Option.isSome_none, Bool.false_eq_true, if_false]

theorem length_flatMap_groupBytes : (groups.flatMap groupBytes).length = 2 * groups.length := by
  induction groups with
  | nil => rfl
  | cons g groups ih =>
    rw [List.flatMap_cons, List.length_append, ih, List.length_cons, Nat.mul_succ, Nat.add_comm]
    rfl

/-- The groups at the end of the text. -/
theorem scan_joined (curtok dst : Bytes) (colonp : Option Nat)
    (htexts : List.Forall₂ IsGroup texts groups) (hroom : dst.length + 2 * groups.length ≤ 16) :
    ∃ s, scan ⟨dst, colonp, 0, 0⟩ curtok (joined texts) = some s ∧ s.colonp = colonp ∧
      lastGroup s = some (dst ++ groups.flatMap groupBytes) := by
  induction htexts generalizing dst curtok with
  | nil => exact ⟨_, rfl, rfl, by rw [List.flatMap_nil, List.append_nil]; rfl⟩
  | @cons text group texts groups htext htexts ih =>
    have hstore : (dst ++ groupBytes group).length = dst.length + 2 := List.length_append
    rw [List.length_cons] at hroom
    by_cases hlast : texts = []
    · -- the last group is stored at the end of the text
      subst hlast
      cases htexts
      have hpos : 0 < text.length := List.length_pos_of_ne_nil htext.ne_nil
      refine ⟨⟨dst, colonp, text.length, group⟩, ?_, rfl, ?_⟩
      · rw [joined_singleton, ← List.append_nil text, scan_group htext, List.append_nil]
        rfl
      · have hroom : ¬ 16 < dst.length + 2 := Nat.not_lt.mpr hroom
        simp only [lastGroup, if_pos hpos, if_neg hroom, List.flatMap_singleton]
    · -- the others are stored at the colon behind them
      obtain ⟨s, hs, hcolonp, hbytes⟩ := ih (joined texts) (dst ++ groupBytes group) (by omega)
      refine ⟨s, ?_, hcolonp, by rw [hbytes, List.flatMap_cons, List.append_assoc]⟩
      rw [joined_cons hlast, scan_colon htext (joined_ne_nil htexts hlast) (by omega)]
      exact hs

/-- The groups in front of the `::`. -/
theorem scan_front {dst : Bytes} (htexts : List.Forall₂ IsGroup texts groups) (h : texts ≠ [])
    (hroom : dst.length + 2 * groups.length ≤ 16) :
    scan ⟨dst, none, 0, 0⟩ curtok (joined texts ++ colon :: colon :: rest) =
      scan ⟨dst ++ groups.flatMap groupBytes, some (dst.length + 2 * groups.length), 0, 0⟩ rest
        rest := by
  induction htexts generalizing dst curtok with
  | nil => exact absurd rfl h
  | @cons text group texts groups htext htexts ih =>
    have hstore : (dst ++ groupBytes group).length = dst.length + 2 := List.length_append
    rw [List.length_cons] at hroom
    by_cases hlast : texts = []
    · -- the first colon stores the group, the second one is the place of the zeros
      subst hlast
      cases htexts
      rw [joined_singleton, scan_colon htext (List.cons_ne_nil _ _) (by omega), scan_double, hstore,
        List.flatMap_singleton]
      rfl
    · have hlen : dst.length + 2 * (groups.length + 1) = dst.length + 2 + 2 * groups.length := by
        omega
      rw [joined_cons hlast, List.append_assoc, List.cons_append, scan_colon htext
        (List.append_ne_nil_of_left_ne_nil (joined_ne_nil htexts hlast) _) (by omega),
        ih hlast (by omega), hstore, List.flatMap_cons, List.append_assoc, List.length_cons, hlen]

/-- The text of a group does not begin with a colon. -/
theorem head_joined (htexts : List.Forall₂ IsGroup texts groups) (h : texts ≠ []) (rest : Bytes) :
    (joined texts ++ rest).head? ≠ some colon := by
  cases htexts with
  | nil => exact absurd rfl h
  | @cons text _ texts _ htext _ =>
    obtain ⟨c, more, hc⟩ := List.exists_cons_of_ne_nil htext.ne_nil
    have hne : c ≠ colon := htext.ne_colon c (by rw [hc]; exact List.mem_cons_self)
    by_cases hlast : texts = []
    · rw [hlast, joined_singleton, hc]
      simpa using hne
    · rw [joined_cons hlast, hc]
      simpa using hne

theorem flatMap_replicate_zero (n : Nat) :
    (List.replicate n 0).flatMap groupBytes = List.replicate (2 * n) 0 := by
  induction n with
  | zero => rfl
  | succ n ih =>
    rw [List.replicate_succ, List.flatMap_cons, ih]
    rfl

/-- What is read is expanded. -/
theorem inetPton6_eq (src : Bytes) {dst : Bytes} {colonp : Option Nat}
    (hsrc : leading text = some src)
    (hscan : ∃ s, scan ⟨[], none, 0, 0⟩ src src = some s ∧ s.colonp = colonp ∧
      lastGroup s = some dst) :
    inetPton6 text = expand colonp dst := by
  obtain ⟨s, hs, rfl, hbytes⟩ := hscan
  simp only [inetPton6, hsrc, hs, hbytes, Option.bind_eq_bind, Option.bind_some]

/-- The zeros stand where the `::` was. -/
theorem expand_groups {zeros : Nat} (hzeros : 0 < zeros)
    (hlen : pre.length + zeros + post.length = 8) :
    expand (some (2 * pre.length)) (pre.flatMap groupBytes ++ post.flatMap groupBytes) =
      some ((pre ++ List.replicate zeros 0 ++ post).flatMap groupBytes) := by
  have hpre : (pre.flatMap groupBytes).length = 2 * pre.length := length_flatMap_groupBytes
  have hpost : (post.flatMap groupBytes).length = 2 * post.length := length_flatMap_groupBytes
  have hrest : 16 - (2 * pre.length + 2 * post.length) = 2 * zeros := by omega
  rw [expand, if_neg (by rw [List.length_append]; omega), ← hpre, List.take_left, List.drop_left,
    List.length_append, hpre, hpost, hrest, List.flatMap_append, List.flatMap_append,
    flatMap_replicate_zero]

/-- **`inet_pton` reads every literal of the grammar.** -/
theorem inetPton6_of_literal (h : Literal text groups) :
    inetPton6 text = some (groups.flatMap groupBytes) := by
  cases h with
  | @full texts groups htexts hlen =>
    have hne : texts ≠ [] := by
      rintro rfl
      cases htexts
      cases hlen
    have hhead : (joined texts).head? ≠ some colon := by
      simpa using head_joined htexts hne []
    rw [inetPton6_eq _ (by rw [leading, if_neg hhead, if_neg (joined_ne_nil htexts hne)])
      (scan_joined _ [] none htexts (by rw [hlen]; decide)), List.nil_append, expand,
      if_pos (by rw [length_flatMap_groupBytes, hlen])]
  | @compressed front back pre post zeros hfront hback hzeros hlen =>
    obtain ⟨s, hs, hcolonp, hbytes⟩ := scan_joined (joined back) (pre.flatMap groupBytes)
      (some (2 * pre.length)) hback (by rw [length_flatMap_groupBytes]; omega)
    rw [← expand_groups hzeros hlen, List.append_assoc]
    by_cases hnil : front = []
    · -- the scan begins at the second colon
      subst hnil
      cases hfront
      refine inetPton6_eq (colon :: joined back) rfl ⟨s, ?_, hcolonp, hbytes⟩
      rw [scan_double]
      exact hs
    · refine inetPton6_eq (joined front ++ colon :: colon :: joined back) ?_
        ⟨s, ?_, hcolonp, hbytes⟩
      · rw [leading, if_neg (head_joined hfront hnil _), if_neg
          (List.append_ne_nil_of_left_ne_nil (joined_ne_nil hfront hnil) _)]
        rfl
      · rw [scan_front hfront hnil (by show 0 + _ ≤ 16; omega), List.nil_append, List.length_nil,
          Nat.zero_add]
        exact hs

/-! ## Pairs of colons -/

theorem doubleColons_cons {c : UInt8} (hc : c ≠ colon) :
    doubleColons (c :: text) = doubleColons text := by
  rw [doubleColons, if_neg (fun h => hc h.1), Nat.zero_add]

theorem doubleColons_append (h : ∀ c ∈ text, c ≠ colon) :
    doubleColons (text ++ rest) = doubleColons rest := by
  induction text with
  | nil => rfl
  | cons c text ih =>
    rw [List.cons_append, doubleColons_cons (h c List.mem_cons_self),
      ih fun d hd => h d (List.mem_cons_of_mem c hd)]

theorem doubleColons_colon (h : text.head? ≠ some colon) :
    doubleColons (colon :: text) = doubleColons text := by
  rw [doubleColons, if_neg (fun hd => h hd.2), Nat.zero_add]

/-- The colons between groups stand alone. -/
theorem doubleColons_joined (htexts : List.Forall₂ IsGroup texts groups) (rest : Bytes) :
    doubleColons (joined texts ++ rest) = doubleColons rest := by
  induction htexts with
  | nil => rfl
  | @cons text _ texts _ htext htexts ih =>
    by_cases hlast : texts = []
    · rw [hlast, joined_singleton, doubleColons_append htext.ne_colon]
    · rw [joined_cons hlast, List.append_assoc, List.cons_append,
        doubleColons_append htext.ne_colon, doubleColons_colon (head_joined htexts hlast _), ih]

/-- A literal has at most one `::`. -/
theorem doubleColons_le (h : Literal text groups) : doubleColons text ≤ 1 := by
  cases h with
  | @full texts groups htexts _ =>
    have hone := doubleColons_joined htexts []
    rw [List.append_nil] at hone
    rw [hone]
    decide
  | @compressed front back pre post _ hfront hback _ _ =>
    have hback' : (joined back).head? ≠ some colon := by
      by_cases hnil : back = []
      · rw [hnil]
        decide
      · simpa using head_joined hback hnil []
    have hone := doubleColons_joined hback []
    rw [List.append_nil] at hone
    rw [List.append_assoc, doubleColons_joined hfront]
    -- the pair in the middle is the only one
    show (if _ then 1 else 0) + doubleColons (colon :: joined back) ≤ 1
    rw [doubleColons_colon hback', hone]
    split <;> decide

end Luwu.Inet
