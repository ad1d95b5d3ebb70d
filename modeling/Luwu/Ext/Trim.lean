import Luwu.Ext.StringUtil

/-!
# Trimming one end

`StringUtil::TrimLeft` and `StringUtil::TrimRight`.  The count that `TrimRight` passes to `substr`
is the offset of the last character to keep.
-/

namespace Luwu.StringUtil

/-- `TrimLeft`. -/
def trimLeft (str delimit : Bytes) : Bytes :=
  match findFirstNotOf str delimit with
  | some first => str.drop first
  | none => []

/-- `TrimRight`. -/
def trimRight (str delimit : Bytes) : Bytes :=
  match findLastNotOf str delimit with
  | some last => str.take last
  | none => []

/-! ## What they are for -/

/-- `r` is the longest prefix of `s` that does not end in a delimiter. -/
structure LongestPrefix (delimit s r : Bytes) : Prop where
  isPrefix : r <+: s
  clean : ∀ c ∈ r.getLast?, c ∉ delimit
  longest : ∀ p, p <+: s → (∀ c ∈ p.getLast?, c ∉ delimit) → p.length ≤ r.length

/-- `r` is the longest suffix of `s` that does not start with a delimiter. -/
structure LongestSuffix (delimit s r : Bytes) : Prop where
  isSuffix : r <:+ s
  clean : ∀ c ∈ r.head?, c ∉ delimit
  longest : ∀ p, p <:+ s → (∀ c ∈ p.head?, c ∉ delimit) → p.length ≤ r.length

/-- The three functions do what they are for, and fit together. -/
structure Trims (s delimit : Bytes) : Prop where
  right : LongestPrefix delimit s (trimRight s delimit)
  left : LongestSuffix delimit s (trimLeft s delimit)
  rightLeft : trim s delimit = trimLeft (trimRight s delimit) delimit
  leftRight : trim s delimit = trimRight (trimLeft s delimit) delimit

section

variable {s delimit : Bytes}

theorem findFirstNotOf_none (h : ∀ c ∈ s, c ∈ delimit) : findFirstNotOf s delimit = none := by
  rw [findFirstNotOf, List.findIdx?_eq_none_iff]
  intro c hc
  simpa using h c hc

theorem findLastNotOf_none (h : ∀ c ∈ s, c ∈ delimit) : findLastNotOf s delimit = none := by
  rw [findLastNotOf, findFirstNotOf_none fun c hc => h c (List.mem_reverse.mp hc)]
  rfl

/-- `TrimLeft` removes the delimiters in front. -/
theorem trimLeft_eq (s delimit : Bytes) : trimLeft s delimit = s.dropWhile delimit.contains := by
  cases hs : s.dropWhile delimit.contains with
  | nil =>
    have hall : ∀ c ∈ s, c ∈ delimit := by
      rw [List.dropWhile_eq_nil_iff] at hs
      intro c hc
      simpa using hs c hc
    rw [trimLeft, findFirstNotOf_none hall]
  | cons x r =>
    have hx : x ∉ delimit := by
      have hhead := List.head_dropWhile_not delimit.contains (l := s) (by rw [hs]; simp)
      simpa [hs] using hhead
    have hsplit : s = s.takeWhile delimit.contains ++ x :: r := by
      rw [← hs, List.takeWhile_append_dropWhile]
    have hfront : ∀ c ∈ s.takeWhile delimit.contains, c ∈ delimit := by
      intro c hc
      simpa using List.mem_takeWhile_imp hc
    rw [trimLeft, hsplit, findFirstNotOf_append_cons hfront hx]
    exact List.drop_left

/-- `TrimRight` removes the delimiters at the end, and the character in front of them. -/
theorem trimRight_eq (s delimit : Bytes) :
    trimRight s delimit = (s.rdropWhile delimit.contains).dropLast := by
  by_cases hne : s.rdropWhile delimit.contains = []
  · have hall : ∀ c ∈ s, c ∈ delimit := by
      rw [List.rdropWhile_eq_nil_iff] at hne
      intro c hc
      simpa using hne c hc
    rw [trimRight, findLastNotOf_none hall, hne]
    rfl
  · have hsplit : s = s.rdropWhile delimit.contains ++ s.rtakeWhile delimit.contains :=
      List.rdropWhile_append_rtakeWhile.symm
    have hend : ∀ c ∈ s.rtakeWhile delimit.contains, c ∈ delimit := by
      intro c hc
      simpa using List.mem_rtakeWhile_imp hc
    have hclean : (s.rdropWhile delimit.contains).getLast hne ∉ delimit := by
      simpa using List.rdropWhile_last_not delimit.contains s hne
    have hlast := findLastNotOf_append (w := []) hend hne hclean
    rw [List.nil_append, List.rdropWhile_append_rtakeWhile] at hlast
    have hlen : s.length - 1 - (s.rtakeWhile delimit.contains).length =
        (s.rdropWhile delimit.contains).length - 1 := by
      have h := congrArg List.length hsplit
      rw [List.length_append] at h
      omega
    -- the offset of the last character to keep is used as a count
    rw [trimRight, hlast, hlen, List.dropLast_eq_take]
    exact (congrArg (List.take _) hsplit).trans (List.take_append_of_le_length (Nat.sub_le _ _))

/-- A suffix that does not start with a delimiter starts behind those in front. -/
theorem suffix_dropWhile {q : UInt8 → Bool} {p : Bytes} (hp : p <:+ s)
    (hclean : ∀ c ∈ p.head?, q c = false) : p <:+ s.dropWhile q := by
  induction s with
  | nil => exact hp
  | cons c s ih =>
    by_cases hc : q c = true
    · rw [List.dropWhile_cons_of_pos hc]
      rcases List.suffix_cons_iff.mp hp with rfl | hp
      · have hno := hclean c rfl
        rw [hc] at hno
        cases hno
      · exact ih hp
    · rw [List.dropWhile_cons_of_neg hc]
      exact hp

/-- **`TrimLeft` keeps the longest suffix that does not start with a delimiter.** -/
theorem trimLeft_longest (s delimit : Bytes) : LongestSuffix delimit s (trimLeft s delimit) := by
  rw [trimLeft_eq]
  constructor
  case isSuffix => exact List.dropWhile_suffix _
  case clean =>
    intro c hc
    have hhead := List.head?_dropWhile_not delimit.contains s
    rw [hc] at hhead
    simpa using hhead
  case longest =>
    intro p hp hclean
    have hsuffix : p <:+ s.dropWhile delimit.contains :=
      suffix_dropWhile hp (by simpa using hclean)
    exact hsuffix.length_le

/-- A character that is no delimiter keeps `TrimRight` from being the longest prefix. -/
theorem trimRight_not_longest (h : ∃ c ∈ s, c ∉ delimit) :
    ¬ LongestPrefix delimit s (trimRight s delimit) := by
  intro hright
  have hne : s.rdropWhile delimit.contains ≠ [] := by
    obtain ⟨c, hc, hcd⟩ := h
    rw [Ne, List.rdropWhile_eq_nil_iff]
    intro hall
    exact hcd (by simpa using hall c hc)
  have hpos := List.length_pos_iff.mpr hne
  have hle : (s.rdropWhile delimit.contains).length ≤ (trimRight s delimit).length := by
    apply hright.longest _ (List.rdropWhile_prefix _ _)
    intro c hc
    rw [List.getLast?_eq_some_getLast hne] at hc
    cases hc
    simpa using List.rdropWhile_last_not delimit.contains s hne
  rw [trimRight_eq, List.length_dropLast] at hle
  omega

/-- **Trimming is right exactly where nothing remains.** -/
theorem trims_iff (s delimit : Bytes) : Trims s delimit ↔ ∀ c ∈ s, c ∈ delimit := by
  constructor
  · intro h c hc
    by_contra hcd
    exact trimRight_not_longest ⟨c, hc, hcd⟩ h.right
  · intro hall
    have hleft : trimLeft s delimit = [] := by rw [trimLeft, findFirstNotOf_none hall]
    have hright : trimRight s delimit = [] := by rw [trimRight, findLastNotOf_none hall]
    have htrim : trim s delimit = [] := by rw [trim, findFirstNotOf_none hall]
    constructor
    case right =>
      rw [hright]
      refine ⟨List.nil_prefix, by simp, ?_⟩
      intro p hp hclean
      -- a character at the end of a prefix is one of `s`
      cases hlast : p.getLast? with
      | none =>
        rw [List.getLast?_eq_none_iff.mp hlast]
      | some c => exact absurd (hall c (hp.subset (List.mem_of_getLast? hlast))) (hclean c hlast)
    case left => exact trimLeft_longest s delimit
    case rightLeft => rw [htrim, hright, trimLeft_eq, List.dropWhile_nil]
    case leftRight => rw [htrim, hleft, trimRight_eq, List.rdropWhile_nil, List.dropLast_nil]

/-- `TrimRight ("ab", " ")` is `a`. -/
theorem not_trims_ab : ¬ Trims (ascii "ab") (ascii " ") := by
  have hclean : ∀ c ∈ (ascii "ab").getLast?, c ∉ ascii " " := by
    intro c hc
    cases hc
    decide
  intro h
  have hle := h.right.longest (ascii "ab") List.prefix_rfl hclean
  revert hle
  decide

end

end Luwu.StringUtil
