import Luwu.Lib.Bytes

/-!
# Searching in strings

The members of `std::string` and the functions on C strings that look for a character, with their
results as offsets, and how a scan for two characters goes through a text.
-/

namespace Luwu.Lib.StdString

/-- `str.find (c, pos)`; `none` is `npos`. -/
def find (str : Bytes) (c : UInt8) (pos : Nat) : Option Nat :=
  ((str.drop pos).findIdx? (· = c)).map (pos + ·)

/-- `str.substr (pos, len)`. -/
def substr (str : Bytes) (pos len : Nat) : Bytes := (str.drop pos).take len

/-- A string up to its first zero, as `c_str ()` gives it to a function on C strings. -/
def cstr (s : Bytes) : Bytes := s.takeWhile (· ≠ 0)

/-- `strchr` on the C string that starts with `s`, for a character other than zero. -/
def strchr (s : Bytes) (c : UInt8) : Option Nat := (cstr s).findIdx? (· = c)

section

variable {str pre x r : Bytes} {c : UInt8} {pos i : Nat}

theorem findIdx?_of_not_mem (hc : c ∉ x) : x.findIdx? (· = c) = none := by
  rw [List.findIdx?_eq_none_iff]
  intro d hd
  exact decide_eq_false fun h => hc (h ▸ hd)

theorem findIdx?_append_cons (hc : c ∉ x) :
    (x ++ c :: r).findIdx? (· = c) = some x.length := by
  rw [List.findIdx?_append, findIdx?_of_not_mem hc]
  simp [List.findIdx?_cons]

theorem find_some (hstr : str = pre ++ (x ++ c :: r)) (hc : c ∉ x) :
    find str c pre.length = some (pre.length + x.length) := by
  rw [find, hstr, List.drop_left, findIdx?_append_cons hc]
  rfl

theorem find_none (hstr : str = pre ++ x) (hc : c ∉ x) : find str c pre.length = none := by
  rw [find, hstr, List.drop_left, findIdx?_of_not_mem hc]
  rfl

theorem find_bounds (h : find str c pos = some i) : pos ≤ i ∧ i < str.length := by
  obtain ⟨j, hj, rfl⟩ := Option.map_eq_some_iff.mp h
  obtain ⟨hlt, -⟩ := List.findIdx?_eq_some_iff_getElem.mp hj
  rw [List.length_drop] at hlt
  omega

theorem substr_append (hstr : str = pre ++ (x ++ r)) : substr str pre.length x.length = x := by
  rw [substr, hstr, List.drop_left, List.take_left]

/-! ## C strings -/

theorem cstr_append (hx : 0 ∉ x) (r : Bytes) : cstr (x ++ r) = x ++ cstr r := by
  refine List.takeWhile_append_of_pos fun c hc => decide_eq_true ?_
  rintro rfl
  exact hx hc

theorem cstr_eq_self (hx : 0 ∉ x) : cstr x = x := by
  simpa [cstr] using cstr_append hx []

theorem zero_not_mem_cstr (s : Bytes) : 0 ∉ cstr s := by
  intro h
  have hall : (cstr s).all (· ≠ 0) = true := List.all_takeWhile
  exact of_decide_eq_true (List.all_eq_true.mp hall 0 h) rfl

/-- A string is its C string, with something behind a zero if it has one. -/
theorem cstr_split (s : Bytes) : s = cstr s ∨ ∃ r, s = cstr s ++ 0 :: r := by
  induction s with
  | nil => exact .inl rfl
  | cons c s ih =>
    by_cases hc : c = 0
    · subst hc
      exact .inr ⟨s, rfl⟩
    · have hcons : cstr (c :: s) = c :: cstr s := List.takeWhile_cons_of_pos (decide_eq_true hc)
      rw [hcons]
      rcases ih with h | ⟨r, h⟩
      · exact .inl (congrArg _ h)
      · exact .inr ⟨r, congrArg _ h⟩

theorem cstr_prefix (s : Bytes) : ∃ r, s = cstr s ++ r :=
  ⟨s.dropWhile (· ≠ 0), List.takeWhile_append_dropWhile.symm⟩

theorem strchr_eq_none : strchr str c = none ↔ c ∉ cstr str := by
  constructor
  · intro h hc
    exact absurd (List.findIdx?_eq_none_iff.mp h c hc) (by simp)
  · exact findIdx?_of_not_mem

end

end Luwu.Lib.StdString
