import Mathlib.Data.List.GetD
import Mathlib.Data.List.DropRight
import Luwu.Lib.Bytes

/-!
# URL encoding

`StringUtil::UrlEncode`, `UrlDecode` and `Trim`.  Both coders read their argument once and begin a
copy of it at the first character that is not to stay as it is.
-/

namespace Luwu.StringUtil

/-! ## The tables -/

/-- `uri_chars`. -/
def uriChars : List UInt8 :=
  [0, 0, 0, 0, 0, 0, 0, 0, 0, 0, 0, 0, 0, 0, 0, 0,
    0, 0, 0, 0, 0, 0, 0, 0, 0, 0, 0, 0, 0, 0, 0, 0,
    0, 0, 0, 0, 0, 0, 0, 0, 0, 0, 0, 0, 0, 1, 1, 0,
    1, 1, 1, 1, 1, 1, 1, 1, 1, 1, 0, 0, 0, 1, 0, 0,
    0, 1, 1, 1, 1, 1, 1, 1, 1, 1, 1, 1, 1, 1, 1, 1,
    1, 1, 1, 1, 1, 1, 1, 1, 1, 1, 1, 0, 0, 0, 0, 1,
    0, 1, 1, 1, 1, 1, 1, 1, 1, 1, 1, 1, 1, 1, 1, 1,
    1, 1, 1, 1, 1, 1, 1, 1, 1, 1, 1, 0, 0, 0, 1, 0,
    0, 0, 0, 0, 0, 0, 0, 0, 0, 0, 0, 0, 0, 0, 0, 0,
    0, 0, 0, 0, 0, 0, 0, 0, 0, 0, 0, 0, 0, 0, 0, 0,
    0, 0, 0, 0, 0, 0, 0, 0, 0, 0, 0, 0, 0, 0, 0, 0,
    0, 0, 0, 0, 0, 0, 0, 0, 0, 0, 0, 0, 0, 0, 0, 0,
    0, 0, 0, 0, 0, 0, 0, 0, 0, 0, 0, 0, 0, 0, 0, 0,
    0, 0, 0, 0, 0, 0, 0, 0, 0, 0, 0, 0, 0, 0, 0, 0,
    0, 0, 0, 0, 0, 0, 0, 0, 0, 0, 0, 0, 0, 0, 0, 0,
    0, 0, 0, 0, 0, 0, 0, 0, 0, 0, 0, 0, 0, 0, 0, 0]

/-- `xdigit_chars`. -/
def xdigitChars : List UInt8 :=
  [0, 0, 0, 0, 0, 0, 0, 0, 0, 0, 0, 0, 0, 0, 0, 0,
    0, 0, 0, 0, 0, 0, 0, 0, 0, 0, 0, 0, 0, 0, 0, 0,
    0, 0, 0, 0, 0, 0, 0, 0, 0, 0, 0, 0, 0, 0, 0, 0,
    0, 1, 2, 3, 4, 5, 6, 7, 8, 9, 0, 0, 0, 0, 0, 0,
    0, 10, 11, 12, 13, 14, 15, 0, 0, 0, 0, 0, 0, 0, 0, 0,
    0, 0, 0, 0, 0, 0, 0, 0, 0, 0, 0, 0, 0, 0, 0, 0,
    0, 10, 11, 12, 13, 14, 15, 0, 0, 0, 0, 0, 0, 0, 0, 0,
    0, 0, 0, 0, 0, 0, 0, 0, 0, 0, 0, 0, 0, 0, 0, 0,
    0, 0, 0, 0, 0, 0, 0, 0, 0, 0, 0, 0, 0, 0, 0, 0,
    0, 0, 0, 0, 0, 0, 0, 0, 0, 0, 0, 0, 0, 0, 0, 0,
    0, 0, 0, 0, 0, 0, 0, 0, 0, 0, 0, 0, 0, 0, 0, 0,
    0, 0, 0, 0, 0, 0, 0, 0, 0, 0, 0, 0, 0, 0, 0, 0,
    0, 0, 0, 0, 0, 0, 0, 0, 0, 0, 0, 0, 0, 0, 0, 0,
    0, 0, 0, 0, 0, 0, 0, 0, 0, 0, 0, 0, 0, 0, 0, 0,
    0, 0, 0, 0, 0, 0, 0, 0, 0, 0, 0, 0, 0, 0, 0, 0,
    0, 0, 0, 0, 0, 0, 0, 0, 0, 0, 0, 0, 0, 0, 0, 0]

/-- `CHAR_IS_UNRESERVED`. -/
def charIsUnreserved (c : UInt8) : Bool := uriChars.getD c.toNat 0 ≠ 0

def hexdigits : Bytes := ascii "0123456789ABCDEF"

/-- `isxdigit`, in the C locale. -/
def isxdigit (c : UInt8) : Bool :=
  ('0'.toUInt8 ≤ c && c ≤ '9'.toUInt8) || ('A'.toUInt8 ≤ c && c ≤ 'F'.toUInt8) ||
    ('a'.toUInt8 ≤ c && c ≤ 'f'.toUInt8)

/-- `xdigit_chars[h] << 4 | xdigit_chars[l]`, as a `char`. -/
def fromHex (h l : UInt8) : UInt8 :=
  xdigitChars.getD h.toNat 0 <<< 4 ||| xdigitChars.getD l.toNat 0

/-! ## The coders -/

/-- The loop of `UrlEncode` from the offset `i` on, where `rest` begins.  `ss` is the copy, once
there is one. -/
def urlEncodeLoop (str : Bytes) (spaceAsPlus : Bool) : Bytes → Nat → Option Bytes → Option Bytes
  | [], _, ss => ss
  | c :: rest, i, ss =>
    if !charIsUnreserved c then
      let copy := ss.getD (str.take i)
      if c = ' '.toUInt8 ∧ spaceAsPlus then
        urlEncodeLoop str spaceAsPlus rest (i + 1) (some (copy ++ ['+'.toUInt8]))
      else
        urlEncodeLoop str spaceAsPlus rest (i + 1) (some (copy ++ ['%'.toUInt8,
          hexdigits.getD (c >>> 4).toNat 0, hexdigits.getD (c &&& 0xf).toNat 0]))
    else urlEncodeLoop str spaceAsPlus rest (i + 1) (ss.map (· ++ [c]))

/-- `UrlEncode`. -/
def urlEncode (str : Bytes) (spaceAsPlus : Bool) : Bytes :=
  (urlEncodeLoop str spaceAsPlus str 0 none).getD str

/-- `(c + 2) < end && isxdigit (c[1]) && isxdigit (c[2])`, and the character that the two digits
stand for; `rest` begins behind `c`. -/
def escaped (rest : Bytes) : Option UInt8 :=
  match rest with
  | h :: l :: _ => if isxdigit h && isxdigit l then some (fromHex h l) else none
  | _ => none

/-- The loop of `UrlDecode`, likewise.  The next `skip` characters have been read already, by
`c += 2`. -/
def urlDecodeLoop (str : Bytes) (spaceAsPlus : Bool) :
    Bytes → Nat → Nat → Option Bytes → Option Bytes
  | [], _, _, ss => ss
  | _ :: rest, i, skip + 1, ss => urlDecodeLoop str spaceAsPlus rest (i + 1) skip ss
  | c :: rest, i, 0, ss =>
    if c = '+'.toUInt8 ∧ spaceAsPlus then
      urlDecodeLoop str spaceAsPlus rest (i + 1) 0 (some (ss.getD (str.take i) ++ [' '.toUInt8]))
    else if c = '%'.toUInt8 ∧ (escaped rest).isSome then
      urlDecodeLoop str spaceAsPlus rest (i + 1) 2
        (some (ss.getD (str.take i) ++ (escaped rest).toList))
    else urlDecodeLoop str spaceAsPlus rest (i + 1) 0 (ss.map (· ++ [c]))

/-- `UrlDecode`. -/
def urlDecode (str : Bytes) (spaceAsPlus : Bool) : Bytes :=
  (urlDecodeLoop str spaceAsPlus str 0 0 none).getD str

def findFirstNotOf (str delimit : Bytes) : Option Nat := str.findIdx? fun c => !delimit.contains c

def findLastNotOf (str delimit : Bytes) : Option Nat :=
  (findFirstNotOf str.reverse delimit).map fun i => str.length - 1 - i

/-- `Trim`. -/
def trim (str delimit : Bytes) : Bytes :=
  match findFirstNotOf str delimit, findLastNotOf str delimit with
  | some first, some last => (str.drop first).take (last - first + 1)
  | _, _ => []

/-! ## What they compute -/

/-- What `UrlEncode` writes for a character. -/
def encodeChar (spaceAsPlus : Bool) (c : UInt8) : Bytes :=
  if charIsUnreserved c then [c]
  else if c = ' '.toUInt8 ∧ spaceAsPlus then ['+'.toUInt8]
  else ['%'.toUInt8, hexdigits.getD (c >>> 4).toNat 0, hexdigits.getD (c &&& 0xf).toNat 0]

/-- What `UrlDecode` writes for `rest`, of which it passes over the first `skip` characters. -/
def decodeFrom (spaceAsPlus : Bool) : Bytes → Nat → Bytes
  | [], _ => []
  | _ :: rest, skip + 1 => decodeFrom spaceAsPlus rest skip
  | c :: rest, 0 =>
    if c = '+'.toUInt8 ∧ spaceAsPlus then ' '.toUInt8 :: decodeFrom spaceAsPlus rest 0
    else if c = '%'.toUInt8 ∧ (escaped rest).isSome then
      (escaped rest).toList ++ decodeFrom spaceAsPlus rest 2
    else c :: decodeFrom spaceAsPlus rest 0

section

variable {b : Bool}

/-- A character that stays as it is goes to the copy, if there is one. -/
theorem getD_map_append (ss : Option Bytes) (pre : Bytes) (c : UInt8) :
    (ss.map (· ++ [c])).getD (pre ++ [c]) = ss.getD pre ++ [c] := by
  cases ss <;> rfl

theorem urlEncodeLoop_eq {str pre rest : Bytes} (hstr : str = pre ++ rest) (ss : Option Bytes) :
    (urlEncodeLoop str b rest pre.length ss).getD str =
      ss.getD pre ++ rest.flatMap (encodeChar b) := by
  induction rest generalizing pre ss with
  | nil =>
    rw [List.append_nil] at hstr
    rw [hstr, List.flatMap_nil, List.append_nil]
    rfl
  | cons c rest ih =>
    have htake : str.take pre.length = pre := by rw [hstr, List.take_left]
    have hnext : str = (pre ++ [c]) ++ rest := by rw [hstr, List.append_assoc]; rfl
    have hlen : pre.length + 1 = (pre ++ [c]).length := by rw [List.length_append]; rfl
    rw [urlEncodeLoop, hlen, List.flatMap_cons, encodeChar, htake]
    by_cases hc : charIsUnreserved c = true
    · rw [if_neg (by simp [hc]), if_pos hc, ih hnext, getD_map_append, List.append_assoc]
    · rw [if_pos (by simp [hc]), if_neg hc]
      split
      · rw [ih hnext, Option.getD_some, List.append_assoc]
      · rw [ih hnext, Option.getD_some, List.append_assoc]

/-- **`UrlEncode` encodes the characters one by one.** -/
theorem urlEncode_eq (s : Bytes) (b : Bool) : urlEncode s b = s.flatMap (encodeChar b) :=
  urlEncodeLoop_eq (show s = [] ++ s from rfl) none

theorem urlDecodeLoop_eq {str pre rest : Bytes} (hstr : str = pre ++ rest) {skip : Nat}
    {ss : Option Bytes} (hss : ss = none → skip = 0) :
    (urlDecodeLoop str b rest pre.length skip ss).getD str =
      ss.getD pre ++ decodeFrom b rest skip := by
  induction rest generalizing pre skip ss with
  | nil =>
    rw [List.append_nil] at hstr
    rw [hstr, decodeFrom, List.append_nil]
    rfl
  | cons c rest ih =>
    have htake : str.take pre.length = pre := by rw [hstr, List.take_left]
    have hnext : str = (pre ++ [c]) ++ rest := by rw [hstr, List.append_assoc]; rfl
    have hlen : pre.length + 1 = (pre ++ [c]).length := by rw [List.length_append]; rfl
    cases skip with
    | succ skip =>
      -- the copy has begun
      cases ss with
      | none => cases hss rfl
      | some copy =>
        rw [urlDecodeLoop, hlen, ih hnext (by simp), decodeFrom]
        rfl
    | zero =>
      rw [urlDecodeLoop, hlen, decodeFrom, htake]
      split
      · rw [ih hnext (by simp), Option.getD_some, List.append_assoc]
        rfl
      · split
        · rw [ih hnext (by simp), Option.getD_some, List.append_assoc]
        · rw [ih hnext (fun _ => rfl), getD_map_append, List.append_assoc]
          rfl

theorem urlDecode_eq (s : Bytes) (b : Bool) : urlDecode s b = decodeFrom b s 0 :=
  urlDecodeLoop_eq (show s = [] ++ s from rfl) (fun _ => rfl)

end

/-! ## What the decoder makes of a text -/

section

variable {b : Bool}

@[simp] theorem urlDecode_nil (b : Bool) : urlDecode [] b = [] := rfl

/-- A character that is neither `+` nor `%` stands for itself. -/
theorem urlDecode_cons {c : UInt8} (hplus : c ≠ '+'.toUInt8) (hpercent : c ≠ '%'.toUInt8)
    (s : Bytes) : urlDecode (c :: s) b = c :: urlDecode s b := by
  rw [urlDecode_eq, urlDecode_eq, decodeFrom, if_neg (fun h => hplus h.1),
    if_neg (fun h => hpercent h.1)]

theorem urlDecode_append_plain {w : Bytes} (hw : ∀ c ∈ w, c ≠ '+'.toUInt8 ∧ c ≠ '%'.toUInt8)
    (s : Bytes) : urlDecode (w ++ s) b = w ++ urlDecode s b := by
  induction w with
  | nil => rfl
  | cons c w ih =>
    obtain ⟨hplus, hpercent⟩ := hw c List.mem_cons_self
    rw [List.cons_append, urlDecode_cons hplus hpercent,
      ih fun c hc => hw c (List.mem_cons_of_mem _ hc)]
    rfl

theorem escaped_append {a : Bytes} {c : UInt8} (hc : isxdigit c = false) (s : Bytes) :
    escaped (a ++ c :: s) = escaped a := by
  match a with
  | [] => cases s <;> simp [escaped, hc]
  | [h] => simp [escaped, hc]
  | h :: l :: a => rfl

theorem length_of_escaped {a : Bytes} (h : (escaped a).isSome) : 2 ≤ a.length := by
  match a, h with
  | _ :: _ :: a, _ => simp

theorem decodeFrom_append {a : Bytes} {c : UInt8} (hc : isxdigit c = false) (s : Bytes) {skip : Nat}
    (hskip : skip ≤ a.length) :
    decodeFrom b (a ++ c :: s) skip = decodeFrom b a skip ++ decodeFrom b (c :: s) 0 := by
  induction a generalizing skip with
  | nil =>
    cases Nat.le_zero.mp hskip
    rfl
  | cons d a ih =>
    cases skip with
    | succ skip => exact ih (Nat.le_of_succ_le_succ hskip)
    | zero =>
      rw [List.cons_append, decodeFrom, decodeFrom, escaped_append hc]
      split
      · rw [ih (Nat.zero_le _)]
        rfl
      · split
        · next h =>
          rw [ih (length_of_escaped h.2), List.append_assoc]
        · rw [ih (Nat.zero_le _)]
          rfl

/-- No escape reaches over a character that is not a digit. -/
theorem urlDecode_append {c : UInt8} (hc : isxdigit c = false) (a s : Bytes) :
    urlDecode (a ++ c :: s) b = urlDecode a b ++ urlDecode (c :: s) b := by
  simp only [urlDecode_eq]
  exact decodeFrom_append hc s (Nat.zero_le _)

theorem urlDecode_escape {h l : UInt8} (hh : isxdigit h = true) (hl : isxdigit l = true)
    (s : Bytes) : urlDecode ('%'.toUInt8 :: h :: l :: s) b = fromHex h l :: urlDecode s b := by
  have hesc : escaped (h :: l :: s) = some (fromHex h l) := by simp [escaped, hh, hl]
  rw [urlDecode_eq, urlDecode_eq, decodeFrom, if_neg (by decide +revert),
    if_pos ⟨rfl, by simp [hesc]⟩, hesc]
  rfl

/-- The two digits that are written for a character stand for it. -/
theorem fromHex_hexdigits (c : UInt8) :
    isxdigit (hexdigits.getD (c >>> 4).toNat 0) = true ∧
      isxdigit (hexdigits.getD (c &&& 0xf).toNat 0) = true ∧
      fromHex (hexdigits.getD (c >>> 4).toNat 0) (hexdigits.getD (c &&& 0xf).toNat 0) = c := by
  revert c
  apply forall_byte
  decide +kernel

theorem charIsUnreserved_ne {c : UInt8} (h : charIsUnreserved c = true) :
    c ≠ '+'.toUInt8 ∧ c ≠ '%'.toUInt8 := by
  constructor <;>
  · rintro rfl
    revert h
    decide

theorem urlDecode_encodeChar (c : UInt8) (s : Bytes) :
    urlDecode (encodeChar b c ++ s) b = c :: urlDecode s b := by
  unfold encodeChar
  split
  · next hc =>
    obtain ⟨hplus, hpercent⟩ := charIsUnreserved_ne hc
    exact urlDecode_cons hplus hpercent s
  · split
    · next hblank =>
      -- a blank comes back from a plus
      rw [urlDecode_eq, urlDecode_eq, hblank.1]
      exact if_pos ⟨rfl, hblank.2⟩
    · obtain ⟨hh, hl, hc⟩ := fromHex_hexdigits c
      refine (urlDecode_escape hh hl s).trans ?_
      rw [hc]

theorem urlDecode_flatMap (s rest : Bytes) :
    urlDecode (s.flatMap (encodeChar b) ++ rest) b = s ++ urlDecode rest b := by
  induction s with
  | nil => rfl
  | cons c s ih =>
    rw [List.flatMap_cons, List.append_assoc, urlDecode_encodeChar, ih]
    rfl

theorem urlDecode_urlEncode (s : Bytes) (b : Bool) : urlDecode (urlEncode s b) b = s := by
  have h := urlDecode_flatMap (b := b) s []
  rwa [List.append_nil, urlDecode_nil, List.append_nil, ← urlEncode_eq] at h

theorem urlDecode_eq_self {s : Bytes} (hpercent : '%'.toUInt8 ∉ s) (hplus : '+'.toUInt8 ∉ s) :
    urlDecode s b = s := by
  have h := urlDecode_append_plain (b := b) (w := s) (fun c hc => ⟨?_, ?_⟩) []
  · rwa [urlDecode_nil, List.append_nil] at h
  · rintro rfl
    exact hplus hc
  · rintro rfl
    exact hpercent hc

end

/-! ## What remains of a text that is trimmed -/

section

variable {p : UInt8 → Bool} {x : UInt8}

theorem dropWhile_append_cons (hx : p x = false) (a r : Bytes) :
    (a ++ x :: r).dropWhile p = a.dropWhile p ++ x :: r := by
  induction a with
  | nil =>
    rw [List.nil_append, List.dropWhile_cons_of_neg (by simp [hx])]
    rfl
  | cons c a ih =>
    rw [List.cons_append]
    by_cases hc : p c = true
    · rw [List.dropWhile_cons_of_pos hc, List.dropWhile_cons_of_pos hc, ih]
    · rw [List.dropWhile_cons_of_neg hc, List.dropWhile_cons_of_neg hc]
      rfl

theorem rdropWhile_append_cons (hx : p x = false) (a r : Bytes) :
    (a ++ x :: r).rdropWhile p = a ++ x :: r.rdropWhile p := by
  have hreverse : (a ++ x :: r).reverse = r.reverse ++ x :: a.reverse := by simp
  rw [List.rdropWhile, hreverse, dropWhile_append_cons hx, List.rdropWhile]
  simp

theorem findFirstNotOf_append_cons {w r delimit : Bytes} (hw : ∀ c ∈ w, c ∈ delimit)
    (hx : x ∉ delimit) : findFirstNotOf (w ++ x :: r) delimit = some w.length := by
  have hnone : w.findIdx? (fun c => !delimit.contains c) = none := by
    rw [List.findIdx?_eq_none_iff]
    intro c hc
    simpa using hw c hc
  rw [findFirstNotOf, List.findIdx?_append, hnone]
  simp [List.findIdx?_cons, hx]

theorem findLastNotOf_append {w u w' delimit : Bytes} (hw' : ∀ c ∈ w', c ∈ delimit) (hne : u ≠ [])
    (hlast : u.getLast hne ∉ delimit) :
    findLastNotOf (w ++ (u ++ w')) delimit = some ((w ++ (u ++ w')).length - 1 - w'.length) := by
  have hreverse : (w ++ (u ++ w')).reverse =
      w'.reverse ++ u.getLast hne :: (w ++ u.dropLast).reverse := by
    conv_lhs => rw [← List.dropLast_append_getLast hne]
    simp
  rw [findLastNotOf, hreverse, findFirstNotOf_append_cons (by simpa using hw') hlast,
    List.length_reverse]
  rfl

/-- A text between delimiters. -/
theorem trim_append {w u w' delimit : Bytes} (hw : ∀ c ∈ w, c ∈ delimit)
    (hw' : ∀ c ∈ w', c ∈ delimit) (hne : u ≠ []) (hfirst : u.head hne ∉ delimit)
    (hlast : u.getLast hne ∉ delimit) : trim (w ++ (u ++ w')) delimit = u := by
  have hbegin : findFirstNotOf (w ++ (u ++ w')) delimit = some w.length := by
    rw [← List.cons_head_tail hne, List.cons_append]
    exact findFirstNotOf_append_cons hw hfirst
  have hpos := List.length_pos_iff.mpr hne
  have hlen : (w ++ (u ++ w')).length = w.length + (u.length + w'.length) := by
    rw [List.length_append, List.length_append]
  have hcount : (w ++ (u ++ w')).length - 1 - w'.length - w.length + 1 = u.length := by omega
  rw [trim, hbegin, findLastNotOf_append hw' hne hlast]
  show ((w ++ (u ++ w')).drop w.length).take _ = u
  rw [hcount, List.drop_left, List.take_left]

/-- **`Trim` takes the delimiters off both ends.** -/
theorem trim_eq (s delimit : Bytes) :
    trim s delimit = (s.dropWhile delimit.contains).rdropWhile delimit.contains := by
  cases hs : s.dropWhile delimit.contains with
  | nil =>
    -- there are delimiters only
    have hnone : findFirstNotOf s delimit = none := by
      rw [findFirstNotOf, List.findIdx?_eq_none_iff]
      intro c hc
      rw [List.dropWhile_eq_nil_iff] at hs
      simpa using hs c hc
    rw [trim, hnone]
    rfl
  | cons x r =>
    have hx : delimit.contains x = false := by
      have hhead := List.head_dropWhile_not delimit.contains (l := s) (by rw [hs]; simp)
      simpa [hs] using hhead
    have hsplit : s = s.takeWhile delimit.contains ++ ((x :: r).rdropWhile delimit.contains ++
        (x :: r).rtakeWhile delimit.contains) := by
      rw [List.rdropWhile_append_rtakeWhile, ← hs, List.takeWhile_append_dropWhile]
    -- what is kept starts with `x`
    have hkeep : (x :: r).rdropWhile delimit.contains = x :: r.rdropWhile delimit.contains :=
      rdropWhile_append_cons hx [] r
    have hne : (x :: r).rdropWhile delimit.contains ≠ [] := by
      rw [hkeep]
      exact List.cons_ne_nil _ _
    conv_lhs => rw [hsplit]
    refine trim_append ?_ ?_ hne ?_ ?_
    · intro c hc
      simpa using List.mem_takeWhile_imp hc
    · intro c hc
      simpa using List.mem_rtakeWhile_imp hc
    · simpa [hkeep] using hx
    · simpa using List.rdropWhile_last_not delimit.contains (x :: r) hne

/-- A character that is no delimiter parts what is trimmed at the front from what is trimmed at the
end. -/
theorem trim_append_cons {delimit : Bytes} (hx : x ∉ delimit) (a r : Bytes) :
    trim (a ++ x :: r) delimit =
      a.dropWhile delimit.contains ++ x :: r.rdropWhile delimit.contains := by
  have hx' : delimit.contains x = false := by simpa using hx
  rw [trim_eq, dropWhile_append_cons hx', rdropWhile_append_cons hx']

/-- Trimmed at its end, a text is delimiters and then what remains when both ends are trimmed. -/
theorem trim_suffix (delimit s : Bytes) :
    ∃ w, (∀ c ∈ w, c ∈ delimit) ∧ s.rdropWhile delimit.contains = w ++ trim s delimit := by
  rw [trim_eq]
  cases hs : s.dropWhile delimit.contains with
  | nil =>
    refine ⟨[], by simp, ?_⟩
    rw [List.dropWhile_eq_nil_iff] at hs
    rw [List.rdropWhile_eq_nil_iff.mpr hs]
    rfl
  | cons x r =>
    have hx : delimit.contains x = false := by
      have hhead := List.head_dropWhile_not delimit.contains (l := s) (by rw [hs]; simp)
      simpa [hs] using hhead
    have hsplit : s = s.takeWhile delimit.contains ++ x :: r := by
      rw [← hs, List.takeWhile_append_dropWhile]
    refine ⟨s.takeWhile delimit.contains, ?_, ?_⟩
    · intro c hc
      simpa using List.mem_takeWhile_imp hc
    · have htail := rdropWhile_append_cons hx [] r
      rw [List.nil_append, List.nil_append] at htail
      rw [htail]
      conv_lhs => rw [hsplit, rdropWhile_append_cons hx]

end

/-! ## What the encoder writes -/

/-- The unreserved characters: letters, digits and `-`, `.`, `_`, `~`. -/
def unreserved (c : UInt8) : Bool :=
  ('0'.toUInt8 ≤ c && c ≤ '9'.toUInt8) || ('A'.toUInt8 ≤ c && c ≤ 'Z'.toUInt8) ||
    ('a'.toUInt8 ≤ c && c ≤ 'z'.toUInt8) || (ascii "-._~").contains c

/-- Unreserved characters, escapes with upper-case digits, and `+` if blanks are written so. -/
inductive Encoded (spaceAsPlus : Bool) : Bytes → Prop where
  | nil : Encoded spaceAsPlus []
  | char {c : UInt8} {s : Bytes} (hc : unreserved c = true) (hs : Encoded spaceAsPlus s) :
      Encoded spaceAsPlus (c :: s)
  | escape {h l : UInt8} {s : Bytes} (hh : h ∈ hexdigits) (hl : l ∈ hexdigits)
      (hs : Encoded spaceAsPlus s) : Encoded spaceAsPlus ('%'.toUInt8 :: h :: l :: s)
  | plus {s : Bytes} (hplus : spaceAsPlus = true) (hs : Encoded spaceAsPlus s) :
      Encoded spaceAsPlus ('+'.toUInt8 :: s)

section

variable {b : Bool} {s : Bytes}

/-- The table, entry by entry. -/
theorem uriChars_eq : (uriChars.map fun x => decide (x ≠ 0)) =
    (List.range 256).map fun n =>
      decide (unreserved (.ofNat n) = true ∨ UInt8.ofNat n = '='.toUInt8) := by
  decide +kernel

/-- The table has the unreserved characters, and `=`. -/
theorem charIsUnreserved_iff (c : UInt8) :
    charIsUnreserved c = true ↔ unreserved c = true ∨ c = '='.toUInt8 := by
  have hentry := List.getD_map uriChars 0 (fun x => decide (x ≠ 0)) (n := c.toNat)
  have hlt : c.toNat < 256 := c.toNat_lt
  rw [charIsUnreserved, ← hentry, uriChars_eq, List.getD_eq_getElem _ _ (by simpa using hlt),
    List.getElem_map, List.getElem_range, UInt8.ofNat_toNat, decide_eq_true_iff]

theorem Encoded.not_mem_equals (h : Encoded b s) : '='.toUInt8 ∉ s := by
  have hdigits : ∀ c ∈ hexdigits, '='.toUInt8 ≠ c := by decide
  induction h with
  | nil => exact List.not_mem_nil
  | char hc hs ih =>
    refine List.not_mem_cons_of_ne_of_not_mem ?_ ih
    rintro rfl
    revert hc
    decide
  | escape hh hl hs ih =>
    refine List.not_mem_cons_of_ne_of_not_mem (by decide) ?_
    refine List.not_mem_cons_of_ne_of_not_mem (hdigits _ hh) ?_
    exact List.not_mem_cons_of_ne_of_not_mem (hdigits _ hl) ih
  | plus hplus hs ih => exact List.not_mem_cons_of_ne_of_not_mem (by decide) ih

theorem hexdigits_mem (n : Nat) (h : n < 16) : hexdigits.getD n 0 ∈ hexdigits := by
  revert n
  decide

theorem nibbles_lt (c : UInt8) : (c >>> 4).toNat < 16 ∧ (c &&& 0xf).toNat < 16 := by
  revert c
  apply forall_byte
  decide +kernel

theorem encoded_flatMap (h : '='.toUInt8 ∉ s) : Encoded b (s.flatMap (encodeChar b)) := by
  induction s with
  | nil => exact .nil
  | cons c s ih =>
    obtain ⟨hc, hs⟩ := not_or.mp (mt List.mem_cons.mpr h)
    rw [List.flatMap_cons, encodeChar]
    split
    · next hun =>
      exact .char (((charIsUnreserved_iff c).mp hun).resolve_right (Ne.symm hc)) (ih hs)
    · split
      · next hblank => exact .plus hblank.2 (ih hs)
      · obtain ⟨hh, hl⟩ := nibbles_lt c
        exact .escape (hexdigits_mem _ hh) (hexdigits_mem _ hl) (ih hs)

theorem equals_mem_urlEncode (h : '='.toUInt8 ∈ s) : '='.toUInt8 ∈ urlEncode s b := by
  rw [urlEncode_eq]
  refine List.mem_flatMap.mpr ⟨_, h, ?_⟩
  have hun : charIsUnreserved '='.toUInt8 = true := by decide
  rw [encodeChar, if_pos hun]
  exact List.mem_singleton_self _

/-- What is expected of the two coders for a string. -/
structure Codes (s : Bytes) (b : Bool) : Prop where
  roundTrip : urlDecode (urlEncode s b) b = s
  encoded : Encoded b (urlEncode s b)
  plain : '%'.toUInt8 ∉ s → '+'.toUInt8 ∉ s → urlDecode s b = s

/-- **The coders agree, and the encoder writes what it may just where there is no `=`**, which its
table takes for an unreserved character. -/
theorem url_codes_iff (s : Bytes) (b : Bool) : Codes s b ↔ '='.toUInt8 ∉ s := by
  constructor
  · intro h hmem
    exact h.encoded.not_mem_equals (equals_mem_urlEncode hmem)
  · intro h
    exact ⟨urlDecode_urlEncode s b, urlEncode_eq s b ▸ encoded_flatMap h, urlDecode_eq_self⟩

/-- The character `=` is written as it is. -/
theorem equals_left_unescaped :
    urlEncode (ascii "a=b c") true = ascii "a=b+c" ∧ ¬ Codes (ascii "a=b c") true := by
  refine ⟨by decide, ?_⟩
  intro h
  exact h.encoded.not_mem_equals (equals_mem_urlEncode (by decide))

end

end Luwu.StringUtil
