import Mathlib.Algebra.Group.Nat.Defs
import Luwu.Lib.Text

/-!
# Splitting a string

The two overloads of `split` run the same loop with different searches.  It ends at `--max == 1`, on
an unsigned `max`.
-/

namespace Luwu.HashUtil

open Lib.StdString (substr cstr)

/-! ## The overloads -/

/-- `while (pos != std::string::npos) { … pos = find (last); }` for at most so many turns, and the
part that is pushed behind it. -/
def splitLoop (find : Nat → Option Nat) (str : Bytes) :
    Nat → UInt64 → Nat → Option Nat → List Bytes → Option (List Bytes)
  | _, _, last, none, result => some (result ++ [str.drop last])
  | 0, _, _, some _, _ => none
  | turns + 1, max, last, some pos, result =>
    let result := result ++ [substr str last (pos - last)]
    -- `if (--max == 1) break;`
    if max - 1 = 1 then some (result ++ [str.drop (pos + 1)])
    else splitLoop find str turns (max - 1) (pos + 1) (find (pos + 1)) result

/-- `split (str, char, max)`. -/
def split (turns : Nat) (str : Bytes) (delim : UInt8) (max : UInt64) : Option (List Bytes) :=
  if str = [] then some []
  else splitLoop (Lib.StdString.find str delim) str turns max 0 (Lib.StdString.find str delim 0) []

/-- `str.find_first_of (delims, pos)` for a C string. -/
def findFirstOf (str delims : Bytes) (pos : Nat) : Option Nat :=
  ((str.drop pos).findIdx? fun c => (cstr delims).contains c).map (pos + ·)

/-- `split (str, const char *, max)`. -/
def splitDelims (turns : Nat) (str delims : Bytes) (max : UInt64) : Option (List Bytes) :=
  if str = [] then some []
  else splitLoop (findFirstOf str delims) str turns max 0 (findFirstOf str delims 0) []

/-! ## Parts -/

/-- The parts between the first so many delimiters. -/
def parts (c : UInt8) : Nat → Bytes → List Bytes
  | 0, x => [x]
  | cuts + 1, x =>
    if c ∈ x then x.takeWhile (· ≠ c) :: parts c cuts (x.dropWhile (· ≠ c)).tail else [x]

section

variable {c : UInt8} {a r x : Bytes} {cuts : Nat}

theorem parts_cut (hc : c ∉ a) (cuts : Nat) (r : Bytes) :
    parts c (cuts + 1) (a ++ c :: r) = a :: parts c cuts r := by
  have hplain : ∀ d ∈ a, decide (d ≠ c) = true := by
    intro d hd
    rw [decide_eq_true_eq]
    rintro rfl
    exact hc hd
  rw [parts, if_pos (by simp), List.takeWhile_append_of_pos hplain,
    List.takeWhile_cons_of_neg (by simp), List.append_nil, List.dropWhile_append_of_pos hplain,
    List.dropWhile_cons_of_neg (by simp)]
  rfl

theorem parts_of_not_mem (hc : c ∉ x) (cuts : Nat) : parts c cuts x = [x] := by
  cases cuts with
  | zero => rfl
  | succ cuts => rw [parts, if_neg hc]

theorem parts_ne_nil (c : UInt8) (cuts : Nat) (x : Bytes) : parts c cuts x ≠ [] := by
  cases cuts with
  | zero => exact List.cons_ne_nil _ _
  | succ cuts =>
    rw [parts]
    split <;> exact List.cons_ne_nil _ _

/-- What a result of `split` is to be: at most `max` parts that the delimiter joins to the string,
where only the last may have it, and only if there are `max` parts. -/
structure Parts (c : UInt8) (max : Nat) (x : Bytes) (ps : List Bytes) : Prop where
  length_le : ps.length ≤ max
  join : [c].intercalate ps = x
  plain : ∀ p ∈ ps.dropLast, c ∉ p
  last : ∀ p ∈ ps.getLast?, c ∈ p → ps.length = max

theorem parts_correct (c : UInt8) (cuts : Nat) (x : Bytes) :
    Parts c (cuts + 1) x (parts c cuts x) := by
  -- on the cuts: the rest behind the first delimiter has one less
  induction cuts generalizing x with
  | zero => exact ⟨Nat.le_refl 1, by simp [parts], by simp [parts], fun _ _ _ => rfl⟩
  | succ cuts ih =>
    by_cases hmem : c ∈ x
    · obtain ⟨a, r, rfl, ha⟩ := List.eq_append_cons_of_mem hmem
      have hr := ih r
      have hne := parts_ne_nil c cuts r
      rw [parts_cut ha]
      constructor
      case length_le => exact Nat.succ_le_succ hr.length_le
      case join =>
        rw [List.intercalate_cons_of_ne_nil hne, hr.join]
        simp
      case plain =>
        rw [List.dropLast_cons_of_ne_nil hne]
        intro p hp
        rcases List.mem_cons.mp hp with rfl | hp
        · exact ha
        · exact hr.plain p hp
      case last =>
        intro p hp hcp
        rw [List.getLast?_cons_of_ne_nil hne] at hp
        exact congrArg (· + 1) (hr.last p hp hcp)
    · rw [parts_of_not_mem hmem]
      refine ⟨by simp, by simp, by simp, ?_⟩
      intro p hp hcp
      cases hp
      exact absurd hcp hmem

end

/-! ## What the loops compute -/

/-- The number of delimiters at which a string is cut: `max - 1` for `max ≥ 2`, and for 1 and 0 as
many as the counter takes to come around. -/
def cuts (max : UInt64) : Nat := (max - 2).toNat + 1

theorem cuts_of_two_le {max : UInt64} (h : 2 ≤ max.toNat) : cuts max + 1 = max.toNat := by
  rw [cuts, UInt64.toNat_sub_of_le]
  · show max.toNat - 2 + 1 + 1 = max.toNat
    omega
  · rw [UInt64.le_iff_toNat_le]
    exact h

theorem cuts_last {max : UInt64} (h : max - 1 = 1) : cuts max = 1 := by
  have hmax : max = 2 := by
    rw [← UInt64.sub_add_cancel max 1, h]
    rfl
  rw [hmax]
  rfl

theorem cuts_next {max : UInt64} (h : max - 1 ≠ 1) : cuts max = cuts (max - 1) + 1 := by
  have hne : max - 2 ≠ 0 := by
    intro h0
    apply h
    have hmax : max = 2 := by
      rw [← UInt64.sub_add_cancel max 2, h0]
      rfl
    rw [hmax]
    rfl
  have hsub : max - 1 - 2 = max - 2 - 1 := by grind
  have hpos : 1 ≤ max - 2 := by
    rw [UInt64.le_iff_toNat_le]
    have h0 : (max - 2).toNat ≠ 0 := fun h0 => hne (UInt64.toNat_inj.mp h0)
    exact Nat.pos_of_ne_zero h0
  have hpos' : 1 ≤ (max - 2).toNat := UInt64.le_iff_toNat_le.mp hpos
  rw [cuts, cuts, hsub, UInt64.toNat_sub_of_le _ _ hpos]
  show (max - 2).toNat + 1 = (max - 2).toNat - 1 + 1 + 1
  omega

section

variable {s pre x : Bytes} {c : UInt8} {turns : Nat}

/-- The loop cuts what is behind the text that it has been through. -/
theorem splitLoop_eq (hs : s = pre ++ x) (hturns : x.length < turns) (max : UInt64)
    (result : List Bytes) :
    splitLoop (Lib.StdString.find s c) s turns max pre.length
      (Lib.StdString.find s c pre.length) result = some (result ++ parts c (cuts max) x) := by
  -- on the turns; `pre` grows by a part and its delimiter, `max` goes down
  induction turns generalizing pre x max result with
  | zero => exact absurd hturns (Nat.not_lt_zero _)
  | succ turns ih =>
    by_cases hmem : c ∈ x
    · obtain ⟨a, r, rfl, ha⟩ := List.eq_append_cons_of_mem hmem
      have hpart : substr s pre.length (pre.length + a.length - pre.length) = a := by
        rw [Nat.add_sub_cancel_left]
        exact Lib.StdString.substr_append hs
      have hnext : s = (pre ++ a ++ [c]) ++ r := by rw [hs]; simp
      have hlast : pre.length + a.length + 1 = (pre ++ a ++ [c]).length := by simp [Nat.add_assoc]
      rw [Lib.StdString.find_some hs ha, splitLoop]
      rw [hpart, hlast]
      by_cases hmax : max - 1 = 1
      · -- the last cut
        rw [if_pos hmax, cuts_last hmax, parts_cut ha]
        conv_lhs => rw [hnext]
        rw [List.drop_left, List.append_assoc]
        rfl
      · rw [List.length_append, List.length_cons] at hturns
        rw [if_neg hmax, ih hnext (by omega), cuts_next hmax, parts_cut ha, List.append_assoc]
        rfl
    · rw [Lib.StdString.find_none hs hmem, parts_of_not_mem hmem]
      show some (result ++ [s.drop pre.length]) = _
      rw [hs, List.drop_left]

/-- `split` cuts the string at the first delimiters. -/
theorem split_eq (hne : s ≠ []) (c : UInt8) (max : UInt64) (hturns : s.length < turns) :
    split turns s c max = some (parts c (cuts max) s) := by
  rw [split, if_neg hne]
  exact splitLoop_eq (show s = [] ++ s from rfl) hturns max []

/-- A set of one character is searched for as that character is. -/
theorem splitDelims_eq {delims : Bytes} (hset : ∀ d, d ∈ cstr delims ↔ d = c) (turns : Nat)
    (s : Bytes) (max : UInt64) : splitDelims turns s delims max = split turns s c max := by
  have hcontains : (fun d => (cstr delims).contains d) = fun d => decide (d = c) := by
    funext d
    rw [Bool.eq_iff_iff, List.contains_iff_mem, hset, decide_eq_true_eq]
  have hfind : findFirstOf s delims = Lib.StdString.find s c := by
    funext pos
    rw [findFirstOf, hcontains]
    rfl
  rw [splitDelims, split, hfind]

end

/-- Both overloads return the same parts, and these are right. -/
def Splits (s : Bytes) (c : UInt8) (max : UInt64) : Prop :=
  ∃ ps, Parts c max.toNat s ps ∧ ∀ turns > s.length, split turns s c max = some ps ∧
    ∀ delims, (∀ d, d ∈ cstr delims ↔ d = c) → splitDelims turns s delims max = some ps

/-- **A string is split into at most `max` parts unless `max` is 1 and there is a delimiter.** -/
theorem splits_iff (s : Bytes) (c : UInt8) (max : UInt64) (hne : s ≠ []) (hmax : 1 ≤ max) :
    Splits s c max ↔ max ≠ 1 ∨ c ∉ s := by
  have hmax' : 1 ≤ max.toNat := UInt64.le_iff_toNat_le.mp hmax
  constructor
  · rintro ⟨ps, hparts, hrun⟩
    by_contra hno
    obtain ⟨rfl, hmem⟩ : max = 1 ∧ c ∈ s := by simpa using hno
    -- there is a part on each side of the first delimiter
    obtain ⟨a, r, rfl, ha⟩ := List.eq_append_cons_of_mem hmem
    have hsplit := split_eq hne c 1 (Nat.lt_succ_self _)
    rw [(hrun _ (Nat.lt_succ_self _)).1, cuts, parts_cut ha] at hsplit
    have hlen := hparts.length_le
    rw [Option.some_inj.mp hsplit, List.length_cons] at hlen
    have hpos := List.length_pos_iff.mpr (parts_ne_nil c (1 - 2 : UInt64).toNat r)
    have hone : (1 : UInt64).toNat = 1 := rfl
    omega
  · intro h
    refine ⟨parts c (cuts max) s, ?_, ?_⟩
    · by_cases htwo : 2 ≤ max.toNat
      · rw [← cuts_of_two_le htwo]
        exact parts_correct c (cuts max) s
      · have hone : max = 1 := UInt64.toNat_inj.mp (show max.toNat = 1 by omega)
        have hmem : c ∉ s := h.resolve_left (not_not.mpr hone)
        rw [parts_of_not_mem hmem, ← parts_of_not_mem hmem 0, hone]
        exact parts_correct c 0 s
    · intro turns hturns
      refine ⟨split_eq hne c max hturns, ?_⟩
      intro delims hset
      rw [splitDelims_eq hset]
      exact split_eq hne c max hturns

theorem splits_commas : Splits (ascii "a,b,c") ','.toUInt8 2 :=
  (splits_iff (ascii "a,b,c") ','.toUInt8 2 (by decide) (by decide)).mpr (.inl (by decide))

/-- `split ("a,b", ',', 1)` has two parts. -/
theorem not_splits_one : split 4 (ascii "a,b") ','.toUInt8 1 = some [ascii "a", ascii "b"] ∧
    ¬ Splits (ascii "a,b") ','.toUInt8 1 := by
  have hrun : split 4 (ascii "a,b") ','.toUInt8 1 = some [ascii "a", ascii "b"] := by decide
  refine ⟨hrun, ?_⟩
  rintro ⟨ps, hparts, hps⟩
  have hsplit := (hps 4 (by decide)).1
  rw [hrun] at hsplit
  cases hsplit
  exact absurd hparts.length_le (by decide)

end Luwu.HashUtil
